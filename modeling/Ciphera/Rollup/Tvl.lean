import Ciphera.Rollup.Calls

/-!
# The running total of the contract

From its second version on the contract counts the tokens it has taken in and
paid out, and refuses deposits above a cap.  With a token that moves exactly
what it is asked to move, the total is covered by the balance of the contract,
and every burn takes off exactly what has left.
-/

namespace Ciphera.Rollup

open Ciphera.Lib

/-! ## An exact token -/

/-- A transfer between accounts. -/
def Moves (sender recipient : Address) (amount : Nat) (before after : Address → Nat) : Prop :=
  amount ≤ before sender ∧
    after =
      Function.update (Function.update before sender (before sender - amount)) recipient
        (Function.update before sender (before sender - amount) recipient + amount)

theorem Moves.sender {sender recipient : Address} {amount : Nat} {before after : Address → Nat}
    (moves : Moves sender recipient amount before after) (differ : recipient ≠ sender) :
    after sender + amount = before sender := by
  rw [moves.2, Function.update_of_ne differ.symm, Function.update_self]
  exact Nat.sub_add_cancel moves.1

theorem Moves.recipient {sender recipient : Address} {amount : Nat} {before after : Address → Nat}
    (moves : Moves sender recipient amount before after) (differ : recipient ≠ sender) :
    after recipient = before recipient + amount := by
  rw [moves.2, Function.update_self, Function.update_of_ne differ]

namespace Externals

variable {W : Type}

/-- The balances of a token. -/
def balances (externals : Externals W) (token : Address) (world : W) (account : Address) : Nat :=
  (externals.balanceOf world token account).toNat

/-- A token that moves what it is asked to move or, when a transfer fails, nothing. -/
structure Exact (externals : Externals W) (token here : Address) : Prop where
  paid : ∀ {world after recipient amount},
    attemptTransfer externals.transfer world token recipient amount = .ok (after, true) →
      Moves here recipient amount.toNat (externals.balances token world)
        (externals.balances token after)
  failed : ∀ {world after recipient amount},
    attemptTransfer externals.transfer world token recipient amount = .ok (after, false) →
      externals.balances token after = externals.balances token world
  taken : ∀ {world after sender recipient amount},
    externals.safeTransferFrom world token sender recipient amount = .ok after →
      Moves sender recipient amount.toNat (externals.balances token world)
        (externals.balances token after)

end Externals

/-! ## Burns -/

section

variable {W : Type} {externals : Externals W} {token here : Address} {funds burned : Nat}

/-- A burn of `value` at a `fee` took `left` off the total: nothing if it was not paid, the
payout, or the whole value when the fee went out too.  The total was not below it, and just as
much has left. -/
structure Releases (externals : Externals W) (token here : Address) (value fee : Element)
    (state next : State W) (left : Element) : Prop where
  route : left = 0 ∨ left = value - fee ∨ left = value
  unclamped : left ≤ state.storage.currentTvl
  released : next.storage.currentTvl = state.storage.currentTvl - left
  outflow : externals.balances token next.world here + left.toNat =
    externals.balances token state.world here

/-- The total is covered by the balance, and at most what was burned has been taken off the
funds. -/
structure Covered (externals : Externals W) (token here : Address) (funds burned : Nat)
    (state : State W) : Prop where
  balance : state.storage.currentTvl.toNat ≤ externals.balances token state.world here
  drawn : funds ≤ state.storage.currentTvl.toNat + burned

theorem releaseTvl_currentTvl {storage : Storage} {left : Element}
    (unclamped : left ≤ storage.currentTvl) :
    (storage.releaseTvl left).currentTvl = storage.currentTvl - left :=
  if_pos unclamped

theorem releases_of_settles {state next : State W} {recipient : Address} {value fee : Element}
    (exact : externals.Exact token here) (recipientOther : recipient ≠ here)
    (sinkOther : state.storage.feeSink ≠ here) (feeLe : fee ≤ value)
    (room : value ≤ state.storage.currentTvl)
    (settles : BurnSettles externals.transfer state token recipient value fee next) :
    ∃ left, Releases externals token here value fee state next left := by
  have payoutLe : value - fee ≤ value := by
    rw [BitVec.le_def, BitVec.toNat_sub_of_le feeLe]
    exact Nat.sub_le _ _
  have payoutRoom := BitVec.le_trans payoutLe room
  cases settles with
  | @unpaid world tried =>
      refine ⟨0, .inl rfl, BitVec.le_def.mpr (Nat.zero_le _), (BitVec.sub_zero _).symm, ?_⟩
      exact congrFun (exact.failed tried) here
  | @feeKept world paid kept =>
      refine ⟨value - fee, .inr (.inl rfl), payoutRoom, releaseTvl_currentTvl payoutRoom, ?_⟩
      exact (exact.paid paid).sender recipientOther
  | @feeSent world after feeOk paid owed sent =>
      have payout := (exact.paid paid).sender recipientOther
      cases feeOk with
      | false =>
          refine ⟨value - fee, .inr (.inl rfl), payoutRoom, releaseTvl_currentTvl payoutRoom, ?_⟩
          rw [exact.failed sent]
          exact payout
      | true =>
          refine ⟨value, .inr (.inr rfl), room, releaseTvl_currentTvl room, ?_⟩
          have feePaid := (exact.paid sent).sender sinkOther
          have sum : value.toNat = fee.toNat + (value - fee).toNat := by
            rw [BitVec.toNat_sub_of_le feeLe]
            exact (Nat.add_sub_cancel' (BitVec.le_def.mp feeLe)).symm
          rw [sum, ← Nat.add_assoc, feePaid]
          exact payout

/-- As long as the burns stay within the funds, a burn takes off what left. -/
theorem Covered.settles {state next : State W} {recipient : Address} {value fee : Element}
    (covered : Covered externals token here funds burned state)
    (exact : externals.Exact token here) (recipientOther : recipient ≠ here)
    (sinkOther : state.storage.feeSink ≠ here) (feeLe : fee ≤ value)
    (within : burned + value.toNat ≤ funds)
    (settles : BurnSettles externals.transfer state token recipient value fee next) :
    (∃ left, Releases externals token here value fee state next left) ∧
      Covered externals token here funds (burned + value.toNat) next := by
  have room : value ≤ state.storage.currentTvl := by
    rw [BitVec.le_def]
    have drawn := covered.drawn
    omega
  rcases releases_of_settles exact recipientOther sinkOther feeLe room settles with
    ⟨left, releases⟩
  have leftLe : left.toNat ≤ value.toNat := by
    rcases releases.route with rfl | rfl | rfl
    · exact Nat.zero_le _
    · rw [BitVec.toNat_sub_of_le feeLe]
      exact Nat.sub_le _ _
    · exact Nat.le_refl _
  have lowered : next.storage.currentTvl.toNat + left.toNat = state.storage.currentTvl.toNat := by
    rw [releases.released, BitVec.toNat_sub_of_le releases.unclamped]
    exact Nat.sub_add_cancel (BitVec.le_def.mp releases.unclamped)
  have outflow := releases.outflow
  have balance := covered.balance
  have drawn := covered.drawn
  refine ⟨⟨left, releases⟩, ?_, ?_⟩
  · omega
  · omega

/-- No burn of the rollup, and no fee, is paid to the contract itself. -/
def PaysOthers (keccak : Keccak) (here : Address) (storage : Storage) (height : Element)
    (messages : List Message) : Prop :=
  storage.feeSink ≠ here ∧
    ∀ crossChain noteKind value hash burnAddr,
      Message.burn crossChain noteKind value hash burnAddr ∈ messages →
        burnRecipient keccak storage height noteKind value hash (bytes32ToAddress burnAddr) ≠ here

/-- Every token of the contract is the same one. -/
def OneToken (token : Address) (storage : Storage) : Prop :=
  ∀ noteKind, storage.tokens noteKind ≠ 0 → storage.tokens noteKind = token

theorem OneToken.congr {storage next : Storage} (one : OneToken token storage)
    (same : next.tokens = storage.tokens) : OneToken token next := by
  intro noteKind supported
  rw [same] at supported ⊢
  exact one noteKind supported

theorem PaysOthers.tail {keccak : Keccak} {storage next : Storage} {height : Element}
    {message : Message} {messages : List Message}
    (pays : PaysOthers keccak here storage height (message :: messages))
    (same : SameSettings storage next) : PaysOthers keccak here next height messages := by
  constructor
  · rw [same.feeSink]
    exact pays.1
  · intro crossChain noteKind value hash burnAddr mem
    rw [same.burnRecipient]
    exact pays.2 _ _ _ _ _ (List.mem_cons_of_mem _ mem)

/-- One message of a rollup. -/
theorem Covered.settleMessage {height : Element} {state next : State W} {message : Message}
    {messages : List Message}
    (covered : Covered externals token here funds burned state)
    (exact : externals.Exact token here) (one : OneToken token state.storage)
    (pays : PaysOthers externals.keccak here state.storage height (message :: messages))
    (within : burned + message.burned ≤ funds)
    (settled : settleMessage externals.keccak externals.transfer height state message = .ok next) :
    Covered externals token here funds (burned + message.burned) next ∧
      ∀ crossChain noteKind value hash burnAddr,
        message = .burn crossChain noteKind value hash burnAddr →
          ∃ left, Releases externals token here value (computeBurnFee state.storage value) state
            next left := by
  cases message with
  | mint noteKind value hash =>
      rcases settleMint_eq_ok_iff.mp settled with ⟨_, rfl⟩
      exact ⟨⟨covered.balance, covered.drawn⟩, by rintro _ _ _ _ _ ⟨⟩⟩
  | burn crossChain noteKind value hash burnAddr =>
      have settles := burnSettles_of_settleBurn settled
      rw [one noteKind (supported_of_settleBurn settled)] at settles
      rcases covered.settles exact (pays.2 _ _ _ _ _ List.mem_cons_self) pays.1
        (computeBurnFee_le _ _) within settles with ⟨releases, coveredNext⟩
      refine ⟨coveredNext, ?_⟩
      rintro _ _ _ _ _ ⟨⟩
      exact releases

/-- The messages of a rollup, up to any of them. -/
theorem Covered.foldlM_settleMessage {height : Element} {state next : State W}
    {messages : List Message} (covered : Covered externals token here funds burned state)
    (exact : externals.Exact token here) (one : OneToken token state.storage)
    (pays : PaysOthers externals.keccak here state.storage height messages)
    (within : burned + (messages.map Message.burned).sum ≤ funds)
    (settled : messages.foldlM (Rollup.settleMessage externals.keccak externals.transfer height)
      state = .ok next) :
    Covered externals token here funds (burned + (messages.map Message.burned).sum) next := by
  induction messages generalizing burned state with
  | nil =>
      obtain rfl := pure_eq_ok_iff.mp settled
      exact covered
  | cons message messages ih =>
      rw [List.foldlM_cons, bind_eq_ok_iff] at settled
      rcases settled with ⟨middle, first, rest⟩
      rw [List.map_cons, List.sum_cons, ← Nat.add_assoc] at within ⊢
      have same := sameSettings_of_settleMessage first
      have coveredMiddle := (covered.settleMessage exact one pays
        ((Nat.le_add_right _ _).trans within) first).1
      exact ih coveredMiddle (one.congr same.tokens) (pays.tail same) within rest

theorem PaysOthers.of_append {keccak : Keccak} {storage next : Storage} {height : Element}
    {settled rest : List Message}
    (pays : PaysOthers keccak here storage height (settled ++ rest))
    (same : SameSettings storage next) :
    PaysOthers keccak here storage height settled ∧ PaysOthers keccak here next height rest := by
  refine ⟨⟨pays.1, ?_⟩, by rw [same.feeSink]; exact pays.1, ?_⟩
  · intro crossChain noteKind value hash burnAddr mem
    exact pays.2 _ _ _ _ _ (List.mem_append_left _ mem)
  · intro crossChain noteKind value hash burnAddr mem
    rw [same.burnRecipient]
    exact pays.2 _ _ _ _ _ (List.mem_append_right _ mem)

/-- Each burn among the messages of a rollup. -/
theorem Covered.releases {height : Element} {state next : State W} {settled rest : List Message}
    {crossChain : Bool} {noteKind value hash burnAddr : Element}
    (covered : Covered externals token here funds burned state)
    (exact : externals.Exact token here) (one : OneToken token state.storage)
    (pays : PaysOthers externals.keccak here state.storage height
      (settled ++ .burn crossChain noteKind value hash burnAddr :: rest))
    (within : burned + ((settled ++ .burn crossChain noteKind value hash burnAddr :: rest).map
      Message.burned).sum ≤ funds)
    (done : (settled ++ .burn crossChain noteKind value hash burnAddr :: rest).foldlM
      (Rollup.settleMessage externals.keccak externals.transfer height) state = .ok next) :
    ∃ middle after left,
      settled.foldlM (Rollup.settleMessage externals.keccak externals.transfer height) state =
          .ok middle ∧
        Rollup.settleMessage externals.keccak externals.transfer height middle
          (.burn crossChain noteKind value hash burnAddr) = .ok after ∧
        Releases externals token here value (computeBurnFee middle.storage value) middle after
          left := by
  rw [List.foldlM_append, bind_eq_ok_iff] at done
  rcases done with ⟨middle, before, behind⟩
  rw [List.foldlM_cons, bind_eq_ok_iff] at behind
  rcases behind with ⟨after, burnt, _⟩
  rw [List.map_append, List.sum_append, List.map_cons, List.sum_cons, ← Nat.add_assoc,
    ← Nat.add_assoc] at within
  have same := sameSettings_of_foldlM before
  rcases pays.of_append same with ⟨paysBefore, paysBehind⟩
  have withinBurn := (Nat.le_add_right _ _).trans within
  have coveredMiddle := covered.foldlM_settleMessage exact one paysBefore
    ((Nat.le_add_right _ _).trans withinBurn) before
  rcases (coveredMiddle.settleMessage exact (one.congr same.tokens) paysBehind withinBurn burnt).2
    _ _ _ _ _ rfl with ⟨left, releases⟩
  exact ⟨middle, after, left, before, burnt, releases⟩

end

/-! ## Calls -/

/-- What an accepted call burns. -/
def RollupV1.Call.burned : RollupV1.Call → Nat
  | verifyRollup rollup =>
      (((parseMessages (rollup.publicInputs.drop 3)).getD []).map Message.burned).sum
  | _ => 0

/-- What an accepted call deposits. -/
def RollupV1.Call.minted : RollupV1.Call → Nat
  | mint _ value _ => value.toNat
  | _ => 0

namespace RollupV1

variable {W : Type}

/-- What an action burns. -/
def Action.burned : Action W → Nat
  | accepted _ request => request.burned
  | reverted .. | elsewhere _ => 0

/-- What an action mints. -/
def Action.minted : Action W → Nat
  | accepted _ request => request.minted
  | reverted .. | elsewhere _ => 0

/-- What actions burn together. -/
def totalBurned (actions : List (Action W)) : Nat := (actions.map Action.burned).sum

/-- What actions mint together. -/
def totalMinted (actions : List (Action W)) : Nat := (actions.map Action.minted).sum

/-- The accepted calls are deposits, rollups, early payments and settings, none of them by or to
the contract itself, and no one else takes tokens from it. -/
def Ordinary (externals : Externals W) (here : Address) (contract : RollupV1 W) : Action W → Prop
  | .accepted _ (.initializeV2 _) | .accepted _ (.mintClaimed ..)
  | .accepted _ (.burnClaimed ..) => False
  | .accepted env (.mint ..) => env.sender ≠ here
  | .accepted env (.substituteBurn burnAddress ..) => env.sender ≠ here ∧ burnAddress ≠ here
  | .accepted _ (.verifyRollup rollup) =>
      PaysOthers externals.keccak here contract.state.storage rollup.height
        ((parseMessages (rollup.publicInputs.drop 3)).getD [])
  | .accepted _ _ | .reverted .. => True
  | .elsewhere world =>
      externals.balances contract.token contract.state.world here ≤
        externals.balances contract.token world here

/-- A step of this kind. -/
def OrdinaryStep (externals : Externals W) (here : Address) (contract : RollupV1 W)
    (action : Action W) (next : RollupV1 W) : Prop :=
  Step externals here contract action next ∧ contract.Ordinary externals here action

section

variable {externals : Externals W} {here : Address} {env : Env} {contract next : RollupV1 W}
  {funds burned : Nat}

/-- No call changes which tokens there are. -/
theorem tokens_of_call {request : Call}
    (done : contract.call externals here env request = .ok next) :
    next.state.storage.tokens = contract.state.storage.tokens ∧ next.token = contract.token := by
  cases request with
  | mint mintHash value noteKind =>
      rcases mint_eq_ok_iff.mp done with ⟨_, _, _, rfl⟩
      exact ⟨rfl, rfl⟩
  | mintClaimed mintHash value noteKind =>
      rcases mintClaimed_eq_ok_iff.mp done with ⟨_, _, rfl⟩
      exact ⟨rfl, rfl⟩
  | verifyRollup rollup =>
      rcases accepts_of_verifyRollup done with ⟨messages, accepts, effect⟩
      rw [effect]
      exact ⟨(sameSettings_of_foldlM accepts.settled).tokens, rfl⟩
  | substituteBurn burnAddress noteKind hash amount burnBlockHeight =>
      rcases (substitutes_of_substituteBurn done).paid with ⟨_, _, _, _, rfl⟩
      exact ⟨rfl, rfl⟩
  | initializeV2 arguments =>
      obtain ⟨_, _, rfl⟩ := eq_upgraded_of_initializeV2 done
      exact ⟨rfl, rfl⟩
  | burnClaimed substituteAddress substituteBurnKey =>
      obtain rfl := eq_of_burnClaimed done
      exact ⟨rfl, rfl⟩
  | setValidators validFrom validators =>
      obtain ⟨_, _, rfl⟩ := setValidators_eq_ok done
      exact ⟨rfl, rfl⟩
  | _ =>
      have frame := frame_of_setting rfl done
      exact ⟨frame.tokens, frame.token⟩

theorem Step.tokens {action : Action W} (taken : Step externals here contract action next) :
    next.state.storage.tokens = contract.state.storage.tokens ∧ next.token = contract.token := by
  cases taken with
  | accepted done => exact tokens_of_call done
  | reverted _ | elsewhere => exact ⟨rfl, rfl⟩

/-- The contract of a deployment has the one token it was deployed with. -/
theorem oneToken_of_run {start : RollupV1 W} {actions : List (Action W)} {world : W}
    {blockNumber : Element} {owner escrowManager tokenAddress verifierAddress prover : Address}
    {initialValidators : List Address} {verifierKeyHash : Element}
    (initial : initializeV1 world blockNumber owner escrowManager tokenAddress verifierAddress
      prover initialValidators verifierKeyHash = .ok start)
    (run : Run (Step externals here) start actions contract) :
    OneToken contract.token contract.state.storage := by
  induction run with
  | nil =>
      rcases bind_eq_ok_iff.mp initial with ⟨created, initialized, result⟩
      obtain rfl := pure_eq_ok_iff.mp result
      rcases bind_eq_ok_iff.mp initialized with ⟨_, _, created⟩
      obtain rfl := pure_eq_ok_iff.mp created
      intro noteKind supported
      exact if_pos (ite_ne_right_iff.mp supported).1
  | snoc _ taken ih =>
      rcases taken.tokens with ⟨tokens, token⟩
      rw [token]
      exact ih.congr tokens

/-- An ordinary step keeps the total covered. -/
theorem covered_of_step {action : Action W} {token : Address}
    (covered : Covered externals token here funds burned contract.state)
    (tokenEq : contract.token = token) (exact : externals.Exact token here)
    (one : OneToken token contract.state.storage)
    (taken : OrdinaryStep externals here contract action next)
    (within : burned + action.burned ≤ funds + action.minted) :
    Covered externals token here (funds + action.minted) (burned + action.burned) next.state := by
  rcases taken with ⟨taken, ordinary⟩
  have unchanged : action.minted = 0 → action.burned = 0 →
      next.state.storage.currentTvl = contract.state.storage.currentTvl →
      externals.balances token contract.state.world here ≤
        externals.balances token next.state.world here →
      Covered externals token here (funds + action.minted) (burned + action.burned) next.state := by
    intro mintedNone burnedNone total balance
    rw [mintedNone, burnedNone]
    constructor
    · rw [total]
      exact covered.balance.trans balance
    · rw [total]
      exact covered.drawn
  cases taken with
  | reverted _ => exact unchanged rfl rfl rfl (Nat.le_refl _)
  | elsewhere =>
      rw [Ordinary, tokenEq] at ordinary
      exact unchanged rfl rfl rfl ordinary
  | @accepted _ env request done =>
      cases request with
      | initializeV2 | mintClaimed | burnClaimed => exact ordinary.elim
      | mint mintHash value noteKind =>
          rcases mint_eq_ok_iff.mp done with ⟨depositable, world, taken, rfl⟩
          rw [one noteKind depositable.supported] at taken
          have received := (exact.taken taken).recipient (Ne.symm ordinary)
          have raised : (contract.state.storage.currentTvl + value).toNat =
              contract.state.storage.currentTvl.toNat + value.toNat := by
            rw [BitVec.toNat_add]
            exact Nat.mod_eq_of_lt depositable.fits
          constructor
          · change (contract.state.storage.currentTvl + value).toNat ≤ _
            rw [raised, received]
            exact Nat.add_le_add_right covered.balance _
          · change funds + value.toNat ≤ (contract.state.storage.currentTvl + value).toNat + burned
            rw [raised, Nat.add_right_comm]
            exact Nat.add_le_add_right covered.drawn _
      | verifyRollup rollup =>
          rcases accepts_of_verifyRollup done with ⟨messages, accepts, _⟩
          have sum : Action.burned (W := W) (.accepted env (.verifyRollup rollup)) =
              (messages.map Message.burned).sum := by
            rw [Action.burned, Call.burned, accepts.parsed]
            rfl
          rw [Ordinary, accepts.parsed] at ordinary
          rw [sum] at within ⊢
          exact covered.foldlM_settleMessage exact one ordinary within accepts.settled
      | substituteBurn burnAddress noteKind hash amount burnBlockHeight =>
          have substitutes := substitutes_of_substituteBurn done
          rcases substitutes.paid with ⟨world, after, taken, sent, rfl⟩
          rw [one noteKind substitutes.supported] at taken sent
          have received := (exact.taken taken).recipient (Ne.symm ordinary.1)
          have paid := (exact.paid sent).sender ordinary.2
          refine unchanged rfl rfl rfl (Nat.le_of_eq ?_)
          apply Nat.add_right_cancel
          exact (paid.trans received).symm
      | setValidators validFrom validators =>
          obtain ⟨_, _, rfl⟩ := setValidators_eq_ok done
          exact unchanged rfl rfl rfl (Nat.le_refl _)
      | _ =>
          have frame := frame_of_setting rfl done
          refine unchanged rfl rfl frame.currentTvl (Nat.le_of_eq ?_)
          rw [frame.world]

@[simp]
theorem totalBurned_snoc (actions : List (Action W)) (action : Action W) :
    totalBurned (actions ++ [action]) = totalBurned actions + action.burned := by
  rw [totalBurned, List.map_append, List.sum_append, List.map_singleton, List.sum_singleton]
  rfl

@[simp]
theorem totalMinted_snoc (actions : List (Action W)) (action : Action W) :
    totalMinted (actions ++ [action]) = totalMinted actions + action.minted := by
  rw [totalMinted, List.map_append, List.sum_append, List.map_singleton, List.sum_singleton]
  rfl

/-- From the second version on, as long as no more is burned than there was and was deposited. -/
theorem covered_of_run {begun : RollupV1 W} {actions : List (Action W)} {seed : Nat}
    (covered : Covered externals begun.token here seed 0 begun.state)
    (exact : externals.Exact begun.token here) (one : OneToken begun.token begun.state.storage)
    (run : Run (OrdinaryStep externals here) begun actions contract)
    (within : ∀ history rest, actions = history ++ rest →
      totalBurned history ≤ seed + totalMinted history) :
    Covered externals begun.token here (seed + totalMinted actions) (totalBurned actions)
        contract.state ∧
      contract.token = begun.token ∧ OneToken begun.token contract.state.storage := by
  induction run with
  | nil => exact ⟨covered, rfl, one⟩
  | @snoc actions middle action next run taken ih =>
      rcases ih fun history rest split => within history (rest ++ [action]) (by
        rw [split, List.append_assoc]) with ⟨coveredMiddle, tokenEq, oneMiddle⟩
      have withinAll := within (actions ++ [action]) [] (List.append_nil _).symm
      rw [totalBurned_snoc, totalMinted_snoc, ← Nat.add_assoc] at withinAll ⊢
      rcases taken.1.tokens with ⟨tokens, token⟩
      exact ⟨covered_of_step coveredMiddle tokenEq exact oneMiddle taken withinAll,
        token.trans tokenEq, oneMiddle.congr tokens⟩

end

end RollupV1

/-- From `initializeV2` on, for every sequence of ordinary calls that burns no more than there
was and was deposited: the total is covered by the balance of the contract, each burn of a rollup
takes exactly what left off the total and never more than is there, and no deposit leaves the
total above its cap. -/
theorem tvl_accounting {W : Type} {externals : Externals W} {here : Address}
    {start old begun contract : RollupV1 W} {earlier actions : List (RollupV1.Action W)} {world : W}
    {blockNumber : Element} {owner escrowManager tokenAddress verifierAddress prover : Address}
    {initialValidators : List Address} {verifierKeyHash : Element} {env : Env}
    {arguments : InitializeV2}
    (initial : RollupV1.initializeV1 world blockNumber owner escrowManager tokenAddress
      verifierAddress prover initialValidators verifierKeyHash = .ok start)
    (before : Run (RollupV1.Step externals here) start earlier old)
    (upgrade : old.call externals here env (.initializeV2 arguments) = .ok begun)
    (exact : externals.Exact begun.token here)
    (run : Run (RollupV1.OrdinaryStep externals here) begun actions contract)
    (within : ∀ history rest, actions = history ++ rest →
      RollupV1.totalBurned history ≤
        externals.balances begun.token begun.state.world here + RollupV1.totalMinted history) :
    contract.state.storage.currentTvl.toNat ≤
        externals.balances contract.token contract.state.world here ∧
      (∀ env rollup next settled crossChain noteKind value hash burnAddr rest,
        RollupV1.OrdinaryStep externals here contract (.accepted env (.verifyRollup rollup)) next →
        RollupV1.totalBurned actions + (RollupV1.Call.verifyRollup rollup).burned ≤
          externals.balances begun.token begun.state.world here + RollupV1.totalMinted actions →
        parseMessages (rollup.publicInputs.drop 3) =
          some (settled ++ .burn crossChain noteKind value hash burnAddr :: rest) →
        ∃ middle after left,
          settled.foldlM (settleMessage externals.keccak externals.transfer rollup.height)
              contract.state = .ok middle ∧
            settleMessage externals.keccak externals.transfer rollup.height middle
              (.burn crossChain noteKind value hash burnAddr) = .ok after ∧
            Releases externals contract.token here value (computeBurnFee middle.storage value)
              middle after left) ∧
      ∀ env mintHash value noteKind next,
        contract.call externals here env (.mint mintHash value noteKind) = .ok next →
          next.state.storage.currentTvl ≤ next.globalTvlCap := by
  rcases RollupV1.eq_upgraded_of_initializeV2 upgrade with ⟨_, _, begunEq⟩
  have one := RollupV1.oneToken_of_run initial (before.snoc (.accepted upgrade))
  have seeded : Covered externals begun.token here
      (externals.balances begun.token begun.state.world here) 0 begun.state := by
    rw [begunEq]
    exact ⟨Nat.le_refl _, Nat.le_refl _⟩
  rcases RollupV1.covered_of_run seeded exact one run within with ⟨covered, tokenEq, oneNow⟩
  rw [tokenEq]
  refine ⟨covered.balance, ?_, ?_⟩
  · intro env rollup next settled crossChain noteKind value hash burnAddr rest taken room parsed
    rcases taken with ⟨taken, ordinary⟩
    cases taken with
    | accepted done =>
        rcases RollupV1.accepts_of_verifyRollup done with ⟨messages, accepts, _⟩
        have parsedSame := accepts.parsed
        rw [parsed] at parsedSame
        obtain rfl := Option.some.inj parsedSame
        rw [RollupV1.Ordinary, parsed] at ordinary
        rw [RollupV1.Call.burned, parsed] at room
        exact covered.releases exact oneNow ordinary room accepts.settled
  · intro env mintHash value noteKind next done
    rcases RollupV1.mint_eq_ok_iff.mp done with ⟨depositable, _, _, rfl⟩
    exact depositable.underTvlCap

/-! ## A token of its own balances -/

/-- Move an amount if the sender has it and the recipient has room for it. -/
def moveCoins (world : Address → Element) (sender recipient : Address) (amount : Element) :
    Option (Address → Element) :=
  let lowered := Function.update world sender (world sender - amount)
  if amount ≤ world sender ∧ (lowered recipient).toNat + amount.toNat < 2 ^ 256 then
    some (Function.update lowered recipient (lowered recipient + amount))
  else none

/-- A token, with the contract at an address. -/
def coins (here : Address) : Externals (Address → Element) :=
  agreeableOver
    (fun world _ recipient amount =>
      match moveCoins world here recipient amount with
      | some after => (after, ⟨true, []⟩)
      | none => (world, ⟨false, []⟩))
    (fun world _ sender recipient amount =>
      match moveCoins world sender recipient amount with
      | some after => .ok after
      | none => .error (.error "SafeERC20FailedOperation"))
    fun world _ account => world account

theorem moves_of_moveCoins {world after : Address → Element} {sender recipient : Address}
    {amount : Element} (moved : moveCoins world sender recipient amount = some after) :
    Moves sender recipient amount.toNat (fun account => (world account).toNat)
      fun account => (after account).toNat := by
  dsimp only [moveCoins] at moved
  split_ifs at moved with allowed
  obtain rfl := Option.some.inj moved
  rcases allowed with ⟨enough, fits⟩
  refine ⟨BitVec.le_def.mp enough, ?_⟩
  funext account
  have lowered : ∀ other, (Function.update world sender (world sender - amount) other).toNat =
      Function.update (fun account => (world account).toNat) sender
        ((world sender).toNat - amount.toNat) other := by
    intro other
    by_cases same : other = sender
    · subst same
      rw [Function.update_self, Function.update_self, BitVec.toNat_sub_of_le enough]
    · rw [Function.update_of_ne same, Function.update_of_ne same]
  by_cases same : account = recipient
  · subst same
    rw [Function.update_self, Function.update_self, BitVec.toNat_add, Nat.mod_eq_of_lt fits,
      lowered]
  · rw [Function.update_of_ne same, Function.update_of_ne same, lowered]

theorem attemptTransfer_coins (here token recipient : Address) (world : Address → Element)
    (amount : Element) :
    attemptTransfer (coins here).transfer world token recipient amount =
      .ok (match moveCoins world here recipient amount with
        | some after => (after, true)
        | none => (world, false)) := by
  have answer : (coins here).transfer world token recipient amount =
      match moveCoins world here recipient amount with
      | some after => (after, ⟨true, []⟩)
      | none => (world, ⟨false, []⟩) := rfl
  rw [attemptTransfer, answer]
  cases moveCoins world here recipient amount <;> rfl

theorem coins_exact (token here : Address) : (coins here).Exact token here where
  paid := by
    intro world after recipient amount sent
    rw [attemptTransfer_coins] at sent
    cases moved : moveCoins world here recipient amount with
    | none =>
        rw [moved] at sent
        cases sent
    | some moveAfter =>
        rw [moved] at sent
        cases sent
        exact moves_of_moveCoins moved
  failed := by
    intro world after recipient amount sent
    rw [attemptTransfer_coins] at sent
    cases moved : moveCoins world here recipient amount with
    | none =>
        rw [moved] at sent
        cases sent
        rfl
    | some moveAfter =>
        rw [moved] at sent
        cases sent
  taken := by
    intro world after sender recipient amount sent
    have answer : (coins here).safeTransferFrom world token sender recipient amount =
        match moveCoins world sender recipient amount with
        | some after => .ok after
        | none => .error (.error "SafeERC20FailedOperation") := rfl
    rw [answer] at sent
    cases moved : moveCoins world sender recipient amount with
    | none =>
        rw [moved] at sent
        cases sent
    | some moveAfter =>
        rw [moved] at sent
        cases sent
        exact moves_of_moveCoins moved

/-- A user has a hundred coins. -/
def hundredCoins : Address → Element := Function.update (fun _ => 0) 2 100

/-- A deposit of fifty and a rollup that mints it and burns twenty of it. -/
theorem depositAndBurn_accepted :
    ∃ start, deploy hundredCoins = .ok start ∧
      ∃ begun, start.call (coins 10) 10 (upgradeCall 3).1 (upgradeCall 3).2 = .ok begun ∧
      ∃ deposited, begun.call (coins 10) 10 ⟨2, 100, 0⟩ (.mint 11 50 tokenKind) = .ok deposited ∧
      deposited.state.storage.feeSink = 3 ∧
      (∀ noteKind value hash burnAddr, burnRecipient (coins 10).keccak deposited.state.storage 1
        noteKind value hash burnAddr = burnAddr) ∧
      ∃ contract, deposited.call (coins 10) 10 ⟨9, 100, 0⟩ (.verifyRollup
          (rollupWith 1 [2, tokenKind, 50, 11, 3, tokenKind, 20, 12, 21])) = .ok contract ∧
        contract.state.storage.currentTvl = 30 :=
  ⟨_, rfl, _, rfl, _, rfl, rfl, fun _ _ _ _ => rfl, _, rfl, rfl⟩

theorem depositAndBurn_accounted :
    ∃ start begun contract actions, deploy hundredCoins = .ok start ∧
      start.call (coins 10) 10 (upgradeCall 3).1 (upgradeCall 3).2 = .ok begun ∧
      Run (RollupV1.OrdinaryStep (coins 10) 10) begun actions contract ∧
      RollupV1.totalBurned actions = 20 ∧ contract.state.storage.currentTvl = 30 ∧
      contract.state.storage.currentTvl.toNat ≤
        (coins 10).balances contract.token contract.state.world 10 := by
  rcases depositAndBurn_accepted with
    ⟨start, deployed, begun, upgraded, deposited, minted, sink, recipients, contract, settled, total⟩
  have paysOthers : PaysOthers (coins 10).keccak 10 deposited.state.storage 1
      [.mint tokenKind 50 11, .burn false tokenKind 20 12 21] := by
    constructor
    · rw [sink]
      decide
    · intro crossChain noteKind value hash burnAddr mem
      rw [recipients]
      rcases List.mem_cons.mp mem with isMint | isBurn
      · cases isMint
      · cases List.mem_singleton.mp isBurn
        decide
  have run : Run (RollupV1.OrdinaryStep (coins 10) 10) begun
      [.accepted ⟨2, 100, 0⟩ (.mint 11 50 tokenKind), .accepted ⟨9, 100, 0⟩ (.verifyRollup
        (rollupWith 1 [2, tokenKind, 50, 11, 3, tokenKind, 20, 12, 21]))] contract :=
    .snoc (.snoc .nil ⟨.accepted minted, fun same => absurd same (by decide)⟩)
      ⟨.accepted settled, paysOthers⟩
  refine ⟨start, begun, contract, _, deployed, upgraded, run, rfl, total, ?_⟩
  apply (tvl_accounting deployed .nil upgraded (coins_exact _ _) run ?_).1
  intro history rest split
  have burned : RollupV1.totalBurned history ≤ 20 := by
    have whole : RollupV1.totalBurned (history ++ rest) = 20 := by
      rw [← split]
      rfl
    rw [RollupV1.totalBurned, List.map_append, List.sum_append] at whole
    exact whole ▸ Nat.le_add_right _ _
  rcases history with _ | ⟨first, history⟩
  · exact Nat.zero_le _
  · obtain rfl := (List.cons.inj split).1
    rw [RollupV1.totalMinted, List.map_cons, List.sum_cons]
    change _ ≤ _ + (50 + _)
    omega

end Ciphera.Rollup
