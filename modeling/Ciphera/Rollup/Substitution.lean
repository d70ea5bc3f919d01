import Ciphera.Rollup.Threshold

/-!
# Burns paid ahead of their rollup

A substitutor pays a burn before its rollup and is repaid when the burn settles.
The two calls are linked by a key that has the height of the rollup in it, and
both take the fee of their own time.
-/

namespace Ciphera.Rollup

open Ciphera.Lib

/-- A burn, without the height at which it settles. -/
structure Burn where
  hash : Element
  burnAddress : Address
  noteKind : Element
  amount : Element
  deriving DecidableEq, Repr

/-- A burn that was paid ahead, for a height and at the fee of the time. -/
structure Substitution where
  burn : Burn
  burnBlockHeight : Element
  substitutor : Address
  fee : Element
  deriving DecidableEq, Repr

/-- What the substitutor paid. -/
def Substitution.payout (substitution : Substitution) : Element :=
  substitution.burn.amount - substitution.fee

/-- A movement of tokens. -/
structure Payment where
  token : Address
  sender : Address
  recipient : Address
  amount : Element
  deriving DecidableEq, Repr

/-- The burn of a message, if it is one. -/
def Message.burns : Message → List Burn
  | mint .. => []
  | burn _ noteKind value hash burnAddr => [⟨hash, bytes32ToAddress burnAddr, noteKind, value⟩]

/-- The key of a burn at a height. -/
def burnKey (keccak : Keccak) (key : Burn × Element) : Element :=
  getSubstituteBurnKey keccak key.1.hash key.1.burnAddress key.1.noteKind key.1.amount key.2

/-- Tokens whose transfers succeed and are written down. -/
structure Externals.Records {W : Type} (externals : Externals W) (here : Address)
    (sent : W → List Payment) : Prop where
  transfer : ∀ world token recipient amount, ∃ after,
    attemptTransfer externals.transfer world token recipient amount = .ok (after, true) ∧
      sent after = sent world ++ [⟨token, here, recipient, amount⟩]
  safeTransferFrom : ∀ {world after token sender recipient amount},
    externals.safeTransferFrom world token sender recipient amount = .ok after →
      sent after = sent world ++ [⟨token, sender, recipient, amount⟩]

/-! ## What settlement pays -/

/-- The fee of a burn, if there is someone to send it to. -/
def feePayments (here : Address) (storage : Storage) (burn : Burn) : List Payment :=
  if 0 < computeBurnFee storage burn.amount ∧ storage.feeSink ≠ 0 then
    [⟨storage.tokens burn.noteKind, here, storage.feeSink, computeBurnFee storage burn.amount⟩]
  else []

/-- The payments of a burn in a rollup of some height. -/
def settlePayments (keccak : Keccak) (here : Address) (storage : Storage) (height : Element)
    (burn : Burn) : List Payment :=
  ⟨storage.tokens burn.noteKind, here,
    burnRecipient keccak storage height burn.noteKind burn.amount burn.hash burn.burnAddress,
    burn.amount - computeBurnFee storage burn.amount⟩ :: feePayments here storage burn

/-- The payments that are owed for a burn: whoever paid it ahead gets back what they paid, and
otherwise its address gets the amount without the fee. -/
def owedPayments (here : Address) (storage : Storage) (early : List Substitution) (burn : Burn) :
    List Payment :=
  (match early.find? (·.burn = burn) with
    | some substitution =>
        ⟨storage.tokens burn.noteKind, here, substitution.substitutor, substitution.payout⟩
    | none =>
        ⟨storage.tokens burn.noteKind, here, burn.burnAddress,
          burn.amount - computeBurnFee storage burn.amount⟩) :: feePayments here storage burn

section

variable {W : Type} {externals : Externals W} {here : Address} {sent : W → List Payment}
  {height : Element}

/-- Where transfers succeed, an attempt has one outcome. -/
theorem Externals.Records.attempted (records : externals.Records here sent) {world after : W}
    {token recipient : Address} {amount : Element} {success : Bool}
    (tried : attemptTransfer externals.transfer world token recipient amount =
      .ok (after, success)) :
    success = true ∧ sent after = sent world ++ [⟨token, here, recipient, amount⟩] := by
  rcases records.transfer world token recipient amount with ⟨paid, paidEq, logged⟩
  rw [paidEq] at tried
  cases tried
  exact ⟨rfl, logged⟩

theorem sent_of_settleMessage (records : externals.Records here sent) {state next : State W}
    {message : Message}
    (settled : settleMessage externals.keccak externals.transfer height state message = .ok next) :
    sent next.world = sent state.world ++
      message.burns.flatMap (settlePayments externals.keccak here state.storage height) := by
  cases message with
  | mint noteKind value hash =>
      rcases settleMint_eq_ok_iff.mp settled with ⟨_, rfl⟩
      exact (List.append_nil _).symm
  | burn crossChain noteKind value hash burnAddr =>
      rw [Message.burns, List.flatMap_singleton, settlePayments, feePayments]
      cases burnSettles_of_settleBurn settled with
      | unpaid tried => cases (records.attempted tried).1
      | feeKept paid kept =>
          rw [if_neg kept]
          exact (records.attempted paid).2
      | feeSent paid owed feeSent =>
          rw [if_pos owed, (records.attempted feeSent).2, (records.attempted paid).2,
            List.append_assoc]
          rfl

theorem SameSettings.settlePayments {keccak : Keccak} {storage next : Storage}
    (same : SameSettings storage next) (burn : Burn) :
    settlePayments keccak here next height burn =
      settlePayments keccak here storage height burn := by
  unfold Rollup.settlePayments feePayments
  rw [same.burnRecipient, same.computeBurnFee, same.tokens, same.feeSink]

/-- The payments of a whole rollup. -/
theorem sent_of_foldlM (records : externals.Records here sent) {state next : State W}
    {messages : List Message}
    (settled : messages.foldlM (settleMessage externals.keccak externals.transfer height) state =
      .ok next) :
    sent next.world = sent state.world ++ (messages.flatMap Message.burns).flatMap
      (settlePayments externals.keccak here state.storage height) := by
  induction messages generalizing state with
  | nil =>
      obtain rfl := pure_eq_ok_iff.mp settled
      exact (List.append_nil _).symm
  | cons message messages ih =>
      rw [List.foldlM_cons, bind_eq_ok_iff] at settled
      rcases settled with ⟨middle, first, rest⟩
      have same := sameSettings_of_settleMessage first
      have later := ih rest
      rw [funext same.settlePayments, sent_of_settleMessage records first] at later
      rw [later, List.flatMap_cons, List.flatMap_append, List.append_assoc]

end

/-! ## Steps with the substitutions so far -/

/-- The burns of an accepted rollup. -/
def RollupV1.Action.burns {W : Type} : Action W → List Burn
  | accepted _ (.verifyRollup rollup) =>
      ((parseMessages (rollup.publicInputs.drop 3)).getD []).flatMap Message.burns
  | _ => []

/-- The keys that an accepted call looks up or writes. -/
def RollupV1.Action.keys {W : Type} : Action W → List (Burn × Element)
  | accepted _ (.verifyRollup rollup) =>
      (((parseMessages (rollup.publicInputs.drop 3)).getD []).flatMap Message.burns).map
        fun burn => (burn, rollup.height)
  | accepted _ (.substituteBurn burnAddress noteKind hash amount burnBlockHeight) =>
      [(⟨hash, burnAddress, noteKind, amount⟩, burnBlockHeight)]
  | _ => []

namespace RollupV1

variable {W : Type}

/-- The substitution that an accepted call makes. -/
def substitutions (contract : RollupV1 W) : Action W → List Substitution
  | .accepted env (.substituteBurn burnAddress noteKind hash amount burnBlockHeight) =>
      [⟨⟨hash, burnAddress, noteKind, amount⟩, burnBlockHeight, env.sender,
        computeBurnFee contract.state.storage amount⟩]
  | _ => []

/-- No call comes from the zero address, and the escrow manager, who writes substitutions without
a payment, makes none. -/
def Paying : Action W → Prop
  | .accepted env (.substituteBurn ..) => env.sender ≠ 0
  | .accepted _ (.burnClaimed ..) => False
  | _ => True

/-- A burn of a rollup that was paid ahead was paid for this height and at the fee of now, and is
in the rollup once. -/
def Repayable (contract : RollupV1 W) (early : List Substitution) : Action W → Prop
  | .accepted env (.verifyRollup rollup) =>
      ∀ substitution ∈ early,
        substitution.burn ∈ (Action.accepted (W := W) env (.verifyRollup rollup)).burns →
          substitution.burnBlockHeight = rollup.height ∧
            substitution.fee = computeBurnFee contract.state.storage substitution.burn.amount ∧
            (Action.accepted (W := W) env (.verifyRollup rollup)).burns.count
              substitution.burn ≤ 1
  | _ => True

/-- A step of the contract together with the substitutions so far. -/
structure EarlyStep (externals : Externals W) (here : Address)
    (source : RollupV1 W × List Substitution) (action : Action W)
    (target : RollupV1 W × List Substitution) : Prop where
  step : Step externals here source.1 action target.1
  early : target.2 = source.2 ++ source.1.substitutions action
  paying : Paying action
  repayable : source.1.Repayable source.2 action

end RollupV1

/-! ## The mapping of substitutions -/

/-- The mapping against the history, at the keys that are ever used. -/
structure Tracks (keccak : Keccak) (scope : List (Burn × Element)) (early : List Substitution)
    (substitutedBurns : Element → Address) : Prop where
  recorded : ∀ substitution ∈ early, substitution.substitutor ≠ 0 ∧
    substitutedBurns (burnKey keccak (substitution.burn, substitution.burnBlockHeight)) =
      substitution.substitutor
  known : ∀ key ∈ scope, substitutedBurns (burnKey keccak key) ≠ 0 →
    ∃ substitution ∈ early, (substitution.burn, substitution.burnBlockHeight) = key

/-- No two keys that are used collide. -/
def CollisionFree (keccak : Keccak) (scope : List (Burn × Element)) : Prop :=
  ∀ first ∈ scope, ∀ second ∈ scope, burnKey keccak first = burnKey keccak second → first = second

namespace Tracks

variable {keccak : Keccak} {scope : List (Burn × Element)} {early : List Substitution}
  {substitutedBurns : Element → Address}

theorem empty : Tracks keccak scope [] fun _ => 0 where
  recorded _ mem := absurd mem List.not_mem_nil
  known _ _ nonzero := absurd rfl nonzero

/-- A substitution is written where there was none. -/
theorem substitute (tracks : Tracks keccak scope early substitutedBurns)
    {substitution : Substitution}
    (apart : ∀ key ∈ scope,
      burnKey keccak key = burnKey keccak (substitution.burn, substitution.burnBlockHeight) →
        key = (substitution.burn, substitution.burnBlockHeight))
    (nonzero : substitution.substitutor ≠ 0)
    (first : substitutedBurns
      (burnKey keccak (substitution.burn, substitution.burnBlockHeight)) = 0) :
    Tracks keccak scope (early ++ [substitution])
      (Function.update substitutedBurns
        (burnKey keccak (substitution.burn, substitution.burnBlockHeight))
        substitution.substitutor) where
  recorded := by
    intro other mem
    rcases List.mem_append.mp mem with old | new
    · rcases tracks.recorded other old with ⟨otherNonzero, found⟩
      refine ⟨otherNonzero, ?_⟩
      rw [Function.update_of_ne, found]
      intro same
      rw [same, first] at found
      exact otherNonzero found.symm
    · obtain rfl := List.mem_singleton.mp new
      exact ⟨nonzero, Function.update_self ..⟩
  known := by
    intro key mem found
    by_cases same :
        burnKey keccak key = burnKey keccak (substitution.burn, substitution.burnBlockHeight)
    · exact ⟨substitution, List.mem_append_right _ List.mem_cons_self, (apart key mem same).symm⟩
    · rw [Function.update_of_ne same] at found
      rcases tracks.known key mem found with ⟨other, otherMem, keyEq⟩
      exact ⟨other, List.mem_append_left _ otherMem, keyEq⟩

/-- The recipient of a burn that was not paid ahead. -/
theorem recipient_of_unpaid {storage : Storage} {height : Element} {burn : Burn}
    (tracks : Tracks keccak scope early storage.substitutedBurns) (used : (burn, height) ∈ scope)
    (unpaid : ∀ substitution ∈ early, substitution.burn ≠ burn) :
    burnRecipient keccak storage height burn.noteKind burn.amount burn.hash burn.burnAddress =
      burn.burnAddress := by
  have absent : storage.substitutedBurns (burnKey keccak (burn, height)) = 0 := by
    by_contra present
    rcases tracks.known _ used present with ⟨substitution, mem, keyEq⟩
    exact unpaid substitution mem (Prod.mk.inj keyEq).1
  exact if_neg fun present => present absent

/-- And of one that was, for its height. -/
theorem recipient_of_paid {storage : Storage} {substitution : Substitution}
    (tracks : Tracks keccak scope early storage.substitutedBurns) (mem : substitution ∈ early) :
    burnRecipient keccak storage substitution.burnBlockHeight substitution.burn.noteKind
        substitution.burn.amount substitution.burn.hash substitution.burn.burnAddress =
      substitution.substitutor := by
  rcases tracks.recorded substitution mem with ⟨nonzero, found⟩
  rw [← found] at nonzero ⊢
  exact if_pos nonzero

/-- A burn pays what is owed, if it was paid ahead for this height and at this fee. -/
theorem settlePayments_eq {here : Address} {storage : Storage} {height : Element} {burn : Burn}
    (tracks : Tracks keccak scope early storage.substitutedBurns) (used : (burn, height) ∈ scope)
    (agree : ∀ substitution ∈ early, substitution.burn = burn →
      substitution.burnBlockHeight = height ∧
        substitution.fee = computeBurnFee storage burn.amount) :
    settlePayments keccak here storage height burn = owedPayments here storage early burn := by
  unfold settlePayments owedPayments
  cases found : early.find? (·.burn = burn) with
  | none =>
      have unpaid : ∀ substitution ∈ early, substitution.burn ≠ burn := by
        intro substitution mem same
        exact absurd (decide_eq_true same) (List.find?_eq_none.mp found substitution mem)
      rw [tracks.recipient_of_unpaid used unpaid]
  | some substitution =>
      have mem := List.mem_of_find?_eq_some found
      obtain rfl : substitution.burn = burn := of_decide_eq_true (List.find?_some found :)
      rcases agree substitution mem rfl with ⟨rfl, feeEq⟩
      rw [tracks.recipient_of_paid mem, ← feeEq]
      rfl

end Tracks

namespace RollupV1

variable {W : Type} {externals : Externals W} {here : Address} {env : Env}
  {start contract next : RollupV1 W} {early earlyNext : List Substitution} {action : Action W}

/-- The calls that do not touch the substitutions. -/
theorem substitutedBurns_of_call {request : Call}
    (done : contract.call externals here env request = .ok next)
    (notBurnClaimed : ∀ substituteAddress substituteBurnKey,
      request ≠ .burnClaimed substituteAddress substituteBurnKey)
    (notSubstitute : ∀ burnAddress noteKind hash amount burnBlockHeight,
      request ≠ .substituteBurn burnAddress noteKind hash amount burnBlockHeight) :
    next.state.storage.substitutedBurns = contract.state.storage.substitutedBurns := by
  cases request with
  | mint mintHash value noteKind =>
      rcases mint_eq_ok_iff.mp done with ⟨_, _, _, rfl⟩
      rfl
  | mintClaimed mintHash value noteKind =>
      rcases mintClaimed_eq_ok_iff.mp done with ⟨_, _, rfl⟩
      rfl
  | verifyRollup rollup =>
      rcases accepts_of_verifyRollup done with ⟨messages, accepts, _⟩
      exact (sameSettings_of_foldlM accepts.settled).substitutedBurns
  | substituteBurn => exact absurd rfl (notSubstitute _ _ _ _ _)
  | initializeV2 arguments =>
      obtain ⟨_, _, rfl⟩ := eq_upgraded_of_initializeV2 done
      rfl
  | burnClaimed => exact absurd rfl (notBurnClaimed _ _)
  | setValidators validFrom validators =>
      obtain ⟨_, _, rfl⟩ := setValidators_eq_ok done
      rfl
  | _ => exact (frame_of_setting rfl done).substitutedBurns

/-- A step writes the substitutions that it makes. -/
theorem Step.tracks {scope : List (Burn × Element)}
    (taken : Step externals here contract action next) (paying : Paying action)
    (apart : ∀ used ∈ action.keys, ∀ key ∈ scope,
      burnKey externals.keccak key = burnKey externals.keccak used → key = used)
    (tracks : Tracks externals.keccak scope early contract.state.storage.substitutedBurns) :
    Tracks externals.keccak scope (early ++ contract.substitutions action)
      next.state.storage.substitutedBurns := by
  have unchanged : contract.substitutions action = [] →
      next.state.storage.substitutedBurns = contract.state.storage.substitutedBurns →
      Tracks externals.keccak scope (early ++ contract.substitutions action)
        next.state.storage.substitutedBurns := by
    intro none same
    rw [none, List.append_nil, same]
    exact tracks
  cases taken with
  | reverted _ | elsewhere => exact unchanged rfl rfl
  | @accepted _ env request done =>
      cases request with
      | burnClaimed => exact paying.elim
      | substituteBurn burnAddress noteKind hash amount burnBlockHeight =>
          have substitutes := substitutes_of_substituteBurn done
          rcases substitutes.paid with ⟨_, _, _, _, rfl⟩
          exact tracks.substitute (apart _ List.mem_cons_self) paying substitutes.first
      | _ => exact unchanged rfl (substitutedBurns_of_call done (by rintro _ _ ⟨⟩)
          (by rintro _ _ _ _ _ ⟨⟩))

theorem EarlyStep.tracks {scope : List (Burn × Element)}
    (taken : EarlyStep externals here (contract, early) action (next, earlyNext))
    (collisionFree : CollisionFree externals.keccak scope) (used : ∀ key ∈ action.keys, key ∈ scope)
    (tracks : Tracks externals.keccak scope early contract.state.storage.substitutedBurns) :
    Tracks externals.keccak scope earlyNext next.state.storage.substitutedBurns := by
  rcases taken with ⟨taken, earlyEq, paying, _⟩
  dsimp only at taken earlyEq
  rw [earlyEq]
  exact taken.tracks paying (fun key isKey other mem => collisionFree other mem key (used key isKey))
    tracks

/-- An accepted rollup pays what is owed. -/
theorem EarlyStep.sent_of_verifyRollup {sent : W → List Payment} {scope : List (Burn × Element)}
    {rollup : RollupCall} (records : externals.Records here sent)
    (taken : EarlyStep externals here (contract, early) (.accepted env (.verifyRollup rollup))
      (next, earlyNext))
    (used : ∀ key ∈ (Action.accepted (W := W) env (.verifyRollup rollup)).keys, key ∈ scope)
    (tracks : Tracks externals.keccak scope early contract.state.storage.substitutedBurns) :
    sent next.state.world = sent contract.state.world ++
      (Action.accepted (W := W) env (.verifyRollup rollup)).burns.flatMap
        (owedPayments here contract.state.storage early) := by
  rcases taken with ⟨taken, _, _, repayable⟩
  cases taken with
  | accepted done =>
      rcases accepts_of_verifyRollup done with ⟨messages, accepts, _⟩
      have burns : (Action.accepted (W := W) env (.verifyRollup rollup)).burns =
          messages.flatMap Message.burns := by
        rw [Action.burns, accepts.parsed]
        rfl
      rw [sent_of_foldlM records accepts.settled, ← burns]
      congr 1
      apply List.flatMap_congr
      intro burn mem
      apply tracks.settlePayments_eq
      · exact used _ (List.mem_map_of_mem mem)
      · rintro substitution earlyMem rfl
        rcases repayable substitution earlyMem mem with ⟨heightEq, feeEq, _⟩
        exact ⟨heightEq, feeEq⟩

/-- What a substitution pays: the substitutor to the contract, and the contract to the address of
the burn. -/
theorem EarlyStep.sent_of_substituteBurn {sent : W → List Payment} {burnAddress : Address}
    {noteKind hash amount burnBlockHeight : Element} (records : externals.Records here sent)
    (taken : EarlyStep externals here (contract, early) (.accepted env
      (.substituteBurn burnAddress noteKind hash amount burnBlockHeight)) (next, earlyNext)) :
    ∃ substitution, earlyNext = early ++ [substitution] ∧
      substitution.burn = ⟨hash, burnAddress, noteKind, amount⟩ ∧
      substitution.substitutor = env.sender ∧
      sent next.state.world = sent contract.state.world ++
        [⟨contract.state.storage.tokens noteKind, env.sender, here, substitution.payout⟩,
          ⟨contract.state.storage.tokens noteKind, here, burnAddress, substitution.payout⟩] := by
  refine ⟨_, taken.early, rfl, rfl, ?_⟩
  cases taken.step with
  | accepted done =>
      rcases (substitutes_of_substituteBurn done).paid with ⟨world, after, received, paid, rfl⟩
      change sent after = _
      rw [(records.attempted paid).2, records.safeTransferFrom received, List.append_assoc]
      rfl

/-- A burn that is in an accepted rollup after its substitution has been paid for that height. -/
theorem EarlyStep.burn_mem {substitution : Substitution}
    (taken : EarlyStep externals here (contract, early) action (next, earlyNext))
    (mem : substitution ∈ early) (inRollup : substitution.burn ∈ action.burns) :
    contract.blockHeight < substitution.burnBlockHeight ∧
      next.blockHeight = substitution.burnBlockHeight ∧
      action.burns.count substitution.burn ≤ 1 := by
  rcases taken with ⟨taken, _, _, repayable⟩
  cases taken with
  | reverted _ | elsewhere => cases inRollup
  | @accepted _ env request done =>
      cases request with
      | verifyRollup rollup =>
          rcases accepts_of_verifyRollup done with ⟨messages, accepts, _⟩
          rcases repayable substitution mem inRollup with ⟨heightEq, _, once⟩
          rw [heightEq]
          refine ⟨accepts.above, ?_, once⟩
          rw [accepts.effect]
      | _ => cases inRollup

/-- Once paid ahead, a burn settles at most once. -/
def SettledOnce (actions : List (Action W)) (contract : RollupV1 W) (early : List Substitution) :
    Prop :=
  ∀ earlier env burnAddress noteKind hash amount burnBlockHeight later,
    actions = earlier ++ .accepted env
        (.substituteBurn burnAddress noteKind hash amount burnBlockHeight) :: later →
      (∃ substitution ∈ early, substitution.burn = ⟨hash, burnAddress, noteKind, amount⟩ ∧
          substitution.burnBlockHeight = burnBlockHeight) ∧
        (later.flatMap Action.burns).count ⟨hash, burnAddress, noteKind, amount⟩ ≤ 1 ∧
        (⟨hash, burnAddress, noteKind, amount⟩ ∈ later.flatMap Action.burns →
          burnBlockHeight.toNat ≤ contract.blockHeight.toNat)

theorem SettledOnce.step {actions : List (Action W)}
    (once : SettledOnce actions contract early)
    (taken : EarlyStep externals here (contract, early) action (next, earlyNext)) :
    SettledOnce (actions ++ [action]) next earlyNext := by
  intro earlier env burnAddress noteKind hash amount burnBlockHeight later split
  have earlyEq : earlyNext = early ++ contract.substitutions action := taken.early
  rcases later.eq_nil_or_concat with rfl | ⟨later, last, rfl⟩
  · -- the substitution is the step itself
    rcases List.append_inj' split rfl with ⟨rfl, lastEq⟩
    obtain rfl := List.singleton_inj.mp lastEq
    have made : (⟨⟨hash, burnAddress, noteKind, amount⟩, burnBlockHeight, env.sender,
        computeBurnFee contract.state.storage amount⟩ : Substitution) ∈ earlyNext := by
      rw [earlyEq]
      exact List.mem_append_right _ List.mem_cons_self
    exact ⟨⟨_, made, rfl, rfl⟩, Nat.zero_le 1, fun mem => absurd mem List.not_mem_nil⟩
  · rw [List.concat_eq_append, ← List.cons_append, ← List.append_assoc] at split
    rcases List.append_inj' split rfl with ⟨rfl, lastEq⟩
    obtain rfl := List.singleton_inj.mp lastEq
    rcases once _ _ _ _ _ _ _ _ rfl with ⟨⟨substitution, mem, burnEq, heightEq⟩, count, settled⟩
    have memNext : substitution ∈ earlyNext := by
      rw [earlyEq]
      exact List.mem_append_left _ mem
    refine ⟨⟨substitution, memNext, burnEq, heightEq⟩, ?_⟩
    rw [List.concat_eq_append, List.flatMap_append, List.flatMap_singleton, List.count_append]
    by_cases inRollup : (⟨hash, burnAddress, noteKind, amount⟩ : Burn) ∈ action.burns
    · rw [← burnEq] at inRollup settled count ⊢
      rcases taken.burn_mem mem inRollup with ⟨above, reached, single⟩
      have unsettled : substitution.burn ∉ later.flatMap Action.burns := by
        intro inLater
        have le := settled inLater
        rw [← heightEq] at le
        exact Nat.not_lt.mpr le (BitVec.lt_def.mp above)
      rw [List.count_eq_zero.mpr unsettled, Nat.zero_add]
      refine ⟨single, fun _ => ?_⟩
      rw [reached, heightEq]
    · rw [List.count_eq_zero.mpr inRollup, Nat.add_zero]
      refine ⟨count, fun inBoth => ?_⟩
      rcases List.mem_append.mp inBoth with inLater | inLast
      · exact (settled inLater).trans taken.step.blockHeight_le
      · exact absurd inLast inRollup

/-- What holds along every run. -/
theorem tracks_of_run {actions : List (Action W)} {scope : List (Burn × Element)}
    (initial : start.state.storage.substitutedBurns = fun _ => 0)
    (collisionFree : CollisionFree externals.keccak scope)
    (used : ∀ key ∈ actions.flatMap Action.keys, key ∈ scope)
    (run : Run (EarlyStep externals here) (start, []) actions (contract, early)) :
    Tracks externals.keccak scope early contract.state.storage.substitutedBurns ∧
      SettledOnce actions contract early := by
  generalize sourceEq : (start, ([] : List Substitution)) = source at run
  generalize targetEq : (contract, early) = target at run
  induction run generalizing contract early with
  | nil =>
      obtain ⟨rfl, rfl⟩ := Prod.mk.inj (targetEq.trans sourceEq.symm)
      refine ⟨initial ▸ .empty, ?_⟩
      intro earlier env burnAddress noteKind hash amount burnBlockHeight later split
      simp at split
  | @snoc actions middle action target run taken ih =>
      obtain rfl := targetEq
      rw [List.flatMap_append, List.flatMap_singleton] at used
      rcases ih (fun key mem => used key (List.mem_append_left _ mem)) rfl with
        ⟨tracks, once⟩
      exact ⟨taken.tracks collisionFree (fun key mem => used key (List.mem_append_right _ mem))
        tracks, once.step taken⟩

end RollupV1

/-- In every run in which the burns that were paid ahead settle at the height and the fee for which
they were paid: a substitution pays the address of the burn exactly what its substitutor pays in, an
accepted rollup pays that back to the substitutor and nothing more to the address, it pays each
other burn once to its address, and no burn settles again after that. -/
theorem substitutors_made_whole {W : Type} {externals : Externals W} {here : Address}
    {start contract next : RollupV1 W} {early earlyNext : List Substitution}
    {actions : List (RollupV1.Action W)} {action : RollupV1.Action W} {world : W}
    {blockNumber : Element} {owner escrowManager tokenAddress verifierAddress prover : Address}
    {initialValidators : List Address} {verifierKeyHash : Element} {sent : W → List Payment}
    (initial : RollupV1.initializeV1 world blockNumber owner escrowManager tokenAddress
      verifierAddress prover initialValidators verifierKeyHash = .ok start)
    (records : externals.Records here sent)
    (collisionFree : CollisionFree externals.keccak
      ((actions ++ [action]).flatMap RollupV1.Action.keys))
    (run : Run (RollupV1.EarlyStep externals here) (start, []) actions (contract, early))
    (taken : RollupV1.EarlyStep externals here (contract, early) action (next, earlyNext)) :
    (∀ env rollup, action = .accepted env (.verifyRollup rollup) →
        sent next.state.world = sent contract.state.world ++
          action.burns.flatMap (owedPayments here contract.state.storage early)) ∧
      (∀ env burnAddress noteKind hash amount burnBlockHeight,
        action = .accepted env (.substituteBurn burnAddress noteKind hash amount burnBlockHeight) →
          ∃ substitution, earlyNext = early ++ [substitution] ∧
            substitution.burn = ⟨hash, burnAddress, noteKind, amount⟩ ∧
            substitution.substitutor = env.sender ∧
            sent next.state.world = sent contract.state.world ++
              [⟨contract.state.storage.tokens noteKind, env.sender, here, substitution.payout⟩,
                ⟨contract.state.storage.tokens noteKind, here, burnAddress,
                  substitution.payout⟩]) ∧
      RollupV1.SettledOnce (actions ++ [action]) next earlyNext := by
  have empty : start.state.storage.substitutedBurns = fun _ => 0 := by
    rcases bind_eq_ok_iff.mp initial with ⟨created, initialized, result⟩
    obtain rfl := pure_eq_ok_iff.mp result
    rcases bind_eq_ok_iff.mp initialized with ⟨_, _, created⟩
    obtain rfl := pure_eq_ok_iff.mp created
    rfl
  have used : ∀ key ∈ actions.flatMap RollupV1.Action.keys,
      key ∈ (actions ++ [action]).flatMap RollupV1.Action.keys := by
    intro key mem
    rw [List.flatMap_append]
    exact List.mem_append_left _ mem
  have usedNow : ∀ key ∈ action.keys, key ∈ (actions ++ [action]).flatMap RollupV1.Action.keys := by
    intro key mem
    rw [List.flatMap_append, List.flatMap_singleton]
    exact List.mem_append_right _ mem
  rcases RollupV1.tracks_of_run empty collisionFree used run with ⟨tracks, once⟩
  refine ⟨?_, ?_, once.step taken⟩
  · rintro env rollup rfl
    exact taken.sent_of_verifyRollup records usedNow tracks
  · rintro env burnAddress noteKind hash amount burnBlockHeight rfl
    exact taken.sent_of_substituteBurn records

/-! ## A payment ahead, with and without a new fee -/

/-- Tokens that only write down what moves, with the contract at an address. -/
def journal (here : Address) : Externals (List Payment) :=
  agreeableOver (fun world token recipient amount =>
      (world ++ [⟨token, here, recipient, amount⟩], ⟨true, []⟩))
    (fun world token sender recipient amount => .ok (world ++ [⟨token, sender, recipient, amount⟩]))
    fun _ _ _ => 0

theorem journal_records (here : Address) : (journal here).Records here id where
  transfer _ _ _ _ := ⟨_, rfl, rfl⟩
  safeTransferFrom := by
    rintro world after token sender recipient amount ⟨⟩
    rfl

/-- A burn of twenty, paid ahead by the owner of the first version. -/
def payAhead : Env × RollupV1.Call := (⟨5, 100, 0⟩, .substituteBurn 21 tokenKind 12 20 1)

/-- The rollup of the burn below. -/
def burnTwenty : RollupCall := rollupWith 1 [3, tokenKind, 20, 12, 21]

/-- With a fee of three all along. -/
theorem sameFee_accepted :
    ∃ start, deploy [] = .ok start ∧ ∃ upgraded,
      start.call (journal 10) 10 (upgradeCall 3).1 (upgradeCall 3).2 = .ok upgraded ∧
      computeBurnFee upgraded.state.storage 20 = 3 ∧
      ∃ paid, upgraded.call (journal 10) 10 payAhead.1 payAhead.2 = .ok paid ∧
        computeBurnFee paid.state.storage 20 = 3 ∧
        ∃ next, paid.call (journal 10) 10 ⟨9, 100, 0⟩ (.verifyRollup burnTwenty) = .ok next :=
  ⟨_, rfl, _, rfl, rfl, _, rfl, rfl, _, rfl⟩

theorem sameFee_made_whole :
    ∃ (start contract next : RollupV1 (List Payment)) (early : List Substitution),
      deploy [] = .ok start ∧
      Run (RollupV1.EarlyStep (journal 10) 10) (start, [])
        [.accepted (upgradeCall 3).1 (upgradeCall 3).2, .accepted payAhead.1 payAhead.2]
        (contract, early) ∧
      early = [⟨⟨12, 21, tokenKind, 20⟩, 1, 5, 3⟩] ∧
      contract.call (journal 10) 10 ⟨9, 100, 0⟩ (.verifyRollup burnTwenty) = .ok next ∧
      next.state.world = contract.state.world ++
        owedPayments 10 contract.state.storage early ⟨12, 21, tokenKind, 20⟩ := by
  rcases sameFee_accepted with
    ⟨start, deployed, upgraded, upgrade, fee, paid, ahead, feeStill, next, settled⟩
  have first : RollupV1.EarlyStep (journal 10) 10 (start, []) (.accepted (upgradeCall 3).1
      (upgradeCall 3).2) (upgraded, []) := ⟨.accepted upgrade, rfl, trivial, trivial⟩
  have second : RollupV1.EarlyStep (journal 10) 10 (upgraded, []) (.accepted payAhead.1 payAhead.2)
      (paid, [⟨⟨12, 21, tokenKind, 20⟩, 1, 5, 3⟩]) := by
    refine ⟨.accepted ahead, ?_, fun zero => absurd zero (by decide), trivial⟩
    rw [← fee]
    rfl
  have third : RollupV1.EarlyStep (journal 10) 10 (paid, [⟨⟨12, 21, tokenKind, 20⟩, 1, 5, 3⟩])
      (.accepted ⟨9, 100, 0⟩ (.verifyRollup burnTwenty))
      (next, [⟨⟨12, 21, tokenKind, 20⟩, 1, 5, 3⟩]) := by
    refine ⟨.accepted settled, rfl, trivial, ?_⟩
    intro substitution mem _
    obtain rfl := List.mem_singleton.mp mem
    exact ⟨rfl, feeStill.symm, by decide⟩
  have collisionFree : CollisionFree (journal 10).keccak
      (List.flatMap (RollupV1.Action.keys (W := List Payment))
        ([.accepted (upgradeCall 3).1 (upgradeCall 3).2, .accepted payAhead.1 payAhead.2] ++
          [.accepted ⟨9, 100, 0⟩ (.verifyRollup burnTwenty)])) := by
    have single : ∀ key ∈ [((⟨12, 21, tokenKind, 20⟩, 1) : Burn × Element),
        (⟨12, 21, tokenKind, 20⟩, 1)], key = (⟨12, 21, tokenKind, 20⟩, 1) := by decide
    intro one oneMem other otherMem _
    rw [single one oneMem, single other otherMem]
  have run : Run (RollupV1.EarlyStep (journal 10) 10) (start, [])
      [.accepted (upgradeCall 3).1 (upgradeCall 3).2, .accepted payAhead.1 payAhead.2]
      (paid, [⟨⟨12, 21, tokenKind, 20⟩, 1, 5, 3⟩]) := .snoc (.snoc .nil first) second
  have whole := (substitutors_made_whole deployed (journal_records 10) collisionFree run third).1
    _ _ rfl
  have burns : RollupV1.Action.burns (W := List Payment)
      (.accepted ⟨9, 100, 0⟩ (.verifyRollup burnTwenty)) = [⟨12, 21, tokenKind, 20⟩] := rfl
  rw [burns, List.flatMap_singleton] at whole
  exact ⟨start, paid, next, _, deployed, run, rfl, settled, whole⟩

/-- The fee goes from zero to three between the payment ahead and the rollup: the substitutor has
paid twenty and gets back seventeen. -/
theorem newFee_short :
    ∃ start, deploy [] = .ok start ∧ ∃ contract, start.calls (journal 10) 10
        [upgradeCall 0, payAhead, (⟨4, 100, 0⟩, .setBurnFee 3),
          (⟨9, 100, 0⟩, .verifyRollup burnTwenty)] = .ok contract ∧
      contract.state.world = [⟨7, 5, 10, 20⟩, ⟨7, 10, 21, 20⟩, ⟨7, 10, 5, 17⟩, ⟨7, 10, 3, 3⟩] :=
  ⟨_, rfl, _, rfl, rfl⟩

end Ciphera.Rollup
