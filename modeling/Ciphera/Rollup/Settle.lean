import Ciphera.Rollup.Contract

/-!
# When settlement goes through

Settlement reverts on a mint without its deposit, on a deposit used twice and
on a burn of an unsupported token, and on nothing else as long as tokens answer
as the standard says.
-/

namespace Ciphera.Rollup

open Ciphera.Lib

/-- A transfer that succeeds returns nothing or an encoded boolean. -/
def Transfer.Standard {W : Type} (transfer : Transfer W) : Prop :=
  ∀ world token recipient amount,
    (transfer world token recipient amount).2.success = true →
      (transfer world token recipient amount).2.returndata = [] ∨
        (transfer world token recipient amount).2.returndata = beBytes 32 0 ∨
        (transfer world token recipient amount).2.returndata = beBytes 32 1

/-- The mint hash of a message that is a mint. -/
def Message.mintHash : Message → Option Element
  | mint _ _ hash => some hash
  | burn .. => none

/-- A message that the contract settles when it is the only one. -/
def Payable (storage : Storage) : Message → Prop
  | .mint noteKind value hash => storage.mints hash = ⟨noteKind, value, false⟩
  | .burn _ noteKind _ _ _ => storage.tokens noteKind ≠ 0

variable {W : Type} (keccak : Keccak) (transfer : Transfer W)

/-- The contract's treatment of one message. -/
def settleMessage (height : Element) (state : State W) : Message → Outcome (State W)
  | .mint noteKind value hash => settleMint noteKind value hash state
  | .burn _ noteKind value hash burnAddr =>
      settleBurn keccak transfer height noteKind value hash (bytes32ToAddress burnAddr) state

/-! ## Single messages -/

@[simp]
theorem settleMint_eq_ok_iff {noteKind value hash : Element} {state next : State W} :
    settleMint noteKind value hash state = .ok next ↔
      state.storage.mints hash = ⟨noteKind, value, false⟩ ∧
        next = { state with storage := state.storage.spend hash } := by
  simp only [settleMint, bind_eq_ok_iff, require_eq_ok_iff, pure_eq_ok_iff, exists_const]
  rcases state.storage.mints hash with ⟨_, _, _⟩
  simp only [Mint.mk.injEq]
  constructor
  · rintro ⟨amount, kind, spent, rfl⟩
    exact ⟨⟨kind, amount, spent⟩, rfl⟩
  · rintro ⟨⟨kind, amount, spent⟩, rfl⟩
    exact ⟨amount, kind, spent, rfl⟩

variable {keccak transfer}

theorem computeBurnFee_le (storage : Storage) (value : Element) :
    computeBurnFee storage value ≤ value := by
  rw [computeBurnFee]
  split
  · exact BitVec.le_refl value
  · exact BitVec.not_lt.mp ‹_›

/-- A transfer to a standard token does not revert and leaves the storage of
the contract alone. -/
theorem executeBurnToAddress_eq_ok (standard : transfer.Standard) (state : State W)
    (token recipient : Address) (value : Element) :
    ∃ world success, executeBurnToAddress transfer state token recipient value =
      .ok (⟨state.storage, world⟩, success) := by
  have answer := standard state.world token recipient value
  rw [executeBurnToAddress]
  generalize transfer state.world token recipient value = outcome at answer
  rcases outcome with ⟨world, ⟨success, returndata⟩⟩
  cases success with
  | false => exact ⟨world, false, rfl⟩
  | true =>
      rcases answer rfl with empty | no | yes
      · obtain rfl : returndata = [] := empty
        exact ⟨world, true, rfl⟩
      · obtain rfl : returndata = beBytes 32 0 := no
        exact ⟨world, false, rfl⟩
      · obtain rfl : returndata = beBytes 32 1 := yes
        exact ⟨world, true, rfl⟩

/-- What settlement of later messages depends on. -/
def SameMints (storage next : Storage) : Prop :=
  next.mints = storage.mints ∧ next.tokens = storage.tokens

theorem settleFee_eq_ok (standard : transfer.Standard) (state : State W) (token : Address)
    (value fee payout : Element) :
    ∃ next, settleFee transfer state token value fee payout = .ok next ∧
      SameMints state.storage next.storage := by
  rw [settleFee]
  split
  · obtain ⟨world, feeOk, paid⟩ :=
      executeBurnToAddress_eq_ok standard state token state.storage.feeSink fee
    rw [tryTransferFee, paid]
    exact ⟨_, rfl, rfl, rfl⟩
  · exact ⟨_, rfl, rfl, rfl⟩

theorem supported_of_settleBurn {height noteKind value hash : Element} {burnAddr : Address}
    {state next : State W}
    (settled : settleBurn keccak transfer height noteKind value hash burnAddr state = .ok next) :
    state.storage.tokens noteKind ≠ 0 := by
  simp only [settleBurn, bind_eq_ok_iff, require_eq_ok_iff] at settled
  obtain ⟨_, supported, _⟩ := settled
  exact supported

/-- A transfer that may fail, without the storage of the contract. -/
def attemptTransfer (transfer : Transfer W) (world : W) (token recipient : Address)
    (value : Element) : Outcome (W × Bool) :=
  let (world, result) := transfer world token recipient value
  if result.success = false then .ok (world, false)
  else if result.returndata.length ≠ 0 then
    (decodeBool result.returndata).map fun funcReturn => (world, funcReturn)
  else .ok (world, true)

@[simp]
theorem executeBurnToAddress_eq_ok_iff {state after : State W} {token recipient : Address}
    {value : Element} {success : Bool} :
    executeBurnToAddress transfer state token recipient value = .ok (after, success) ↔
      attemptTransfer transfer state.world token recipient value = .ok (after.world, success) ∧
        after.storage = state.storage := by
  rcases after with ⟨storage, world⟩
  unfold attemptTransfer executeBurnToAddress
  dsimp only
  generalize transfer state.world token recipient value = outcome
  have answered : ∀ answer, ((.ok (⟨state.storage, outcome.1⟩, answer) : Outcome (State W × Bool)) =
      .ok (⟨storage, world⟩, success) ↔
        (.ok (outcome.1, answer) : Outcome (W × Bool)) = .ok (world, success) ∧
          storage = state.storage) := by
    intro answer
    constructor
    · intro same
      rcases Prod.mk.inj (Except.ok.inj same) with ⟨stateEq, rfl⟩
      rcases State.mk.inj stateEq with ⟨rfl, rfl⟩
      exact ⟨rfl, rfl⟩
    · rintro ⟨same, rfl⟩
      rcases Prod.mk.inj (Except.ok.inj same) with ⟨rfl, rfl⟩
      rfl
  split_ifs
  · exact answered false
  · cases decodeBool outcome.2.returndata with
    | error stop =>
        constructor
        · rintro ⟨⟩
        · rintro ⟨⟨⟩, _⟩
    | ok answer => exact answered answer
  · exact answered true

/-- The ways in which a burn settles: its payout fails and nothing happens, or it
is paid and the fee is kept, or it is paid and the fee is passed on if it can be. -/
inductive BurnSettles (transfer : Transfer W) (state : State W) (token recipient : Address)
    (value fee : Element) : State W → Prop
  | unpaid {world : W}
      (tried : attemptTransfer transfer state.world token recipient (value - fee) =
        .ok (world, false)) :
      BurnSettles transfer state token recipient value fee ⟨state.storage, world⟩
  | feeKept {world : W}
      (paid : attemptTransfer transfer state.world token recipient (value - fee) =
        .ok (world, true))
      (kept : ¬(0 < fee ∧ state.storage.feeSink ≠ 0)) :
      BurnSettles transfer state token recipient value fee
        ⟨state.storage.releaseTvl (value - fee), world⟩
  | feeSent {world after : W} {feeOk : Bool}
      (paid : attemptTransfer transfer state.world token recipient (value - fee) =
        .ok (world, true))
      (owed : 0 < fee ∧ state.storage.feeSink ≠ 0)
      (sent : attemptTransfer transfer world token state.storage.feeSink fee =
        .ok (after, feeOk)) :
      BurnSettles transfer state token recipient value fee
        ⟨state.storage.releaseTvl (if feeOk then value else value - fee), after⟩

theorem burnSettles_of_settleFee {state next : State W} {token recipient : Address}
    {value fee : Element} {world : W}
    (paid : attemptTransfer transfer state.world token recipient (value - fee) =
      .ok (world, true))
    (settled : settleFee transfer ⟨state.storage, world⟩ token value fee (value - fee) = .ok next) :
    BurnSettles transfer state token recipient value fee next := by
  unfold settleFee at settled
  split_ifs at settled with owed
  · rcases bind_eq_ok_iff.mp settled with ⟨⟨after, feeOk⟩, sent, result⟩
    obtain rfl := pure_eq_ok_iff.mp result
    rcases executeBurnToAddress_eq_ok_iff.mp sent with ⟨sent, storage⟩
    dsimp only at storage ⊢
    rw [storage]
    exact .feeSent paid owed sent
  · obtain rfl := pure_eq_ok_iff.mp settled
    exact .feeKept paid owed

/-- What a settled burn has done. -/
theorem burnSettles_of_settleBurn {height noteKind value hash : Element} {burnAddr : Address}
    {state next : State W}
    (settled : settleBurn keccak transfer height noteKind value hash burnAddr state = .ok next) :
    BurnSettles transfer state (state.storage.tokens noteKind)
      (burnRecipient keccak state.storage height noteKind value hash burnAddr) value
      (computeBurnFee state.storage value) next := by
  simp only [settleBurn, bind_eq_ok_iff, require_eq_ok_iff] at settled
  rcases settled with ⟨_, _, payout, subtracted, ⟨⟨middle, world⟩, success⟩, tried, rest⟩
  have le := computeBurnFee_le state.storage value
  rw [checkedSub, if_pos le] at subtracted
  obtain rfl := Except.ok.inj subtracted
  obtain ⟨tried, rfl⟩ := executeBurnToAddress_eq_ok_iff.mp tried
  cases success with
  | false =>
      obtain rfl := pure_eq_ok_iff.mp rest
      exact .unpaid tried
  | true => exact burnSettles_of_settleFee tried rest

/-- A burn of a supported token settles and leaves the deposits alone. -/
theorem settleBurn_eq_ok (standard : transfer.Standard) {height noteKind value hash : Element}
    {burnAddr : Address} {state : State W} (supported : state.storage.tokens noteKind ≠ 0) :
    ∃ next, settleBurn keccak transfer height noteKind value hash burnAddr state = .ok next ∧
      SameMints state.storage next.storage := by
  have passed : require (state.storage.tokens noteKind ≠ 0) "RollupV1: Unsupported token" =
      .ok () := require_eq_ok_iff.mpr supported
  have payout : checkedSub value (computeBurnFee state.storage value) = .ok _ :=
    if_pos (computeBurnFee_le state.storage value)
  obtain ⟨world, success, paid⟩ := executeBurnToAddress_eq_ok standard state
    (state.storage.tokens noteKind)
    (burnRecipient keccak state.storage height noteKind value hash burnAddr)
    (value - computeBurnFee state.storage value)
  simp only [settleBurn, passed, payout, paid, ok_bind]
  cases success with
  | false => exact ⟨_, rfl, rfl, rfl⟩
  | true => exact settleFee_eq_ok standard ⟨state.storage, world⟩ _ _ _ _

theorem payable_congr {storage next : Storage} (same : SameMints storage next)
    (message : Message) : Payable next message ↔ Payable storage message := by
  cases message with
  | mint noteKind value hash => rw [Payable, Payable, same.1]
  | burn crossChain noteKind value hash burnAddr => rw [Payable, Payable, same.2]

/-- Spending a deposit takes away the mints of that deposit only. -/
@[simp]
theorem payable_spend_iff {storage : Storage} {hash : Element} {message : Message} :
    Payable (storage.spend hash) message ↔
      Payable storage message ∧ message.mintHash ≠ some hash := by
  cases message with
  | burn crossChain noteKind value hash burnAddr => simp [Payable, Storage.spend, Message.mintHash]
  | mint noteKind value other =>
      by_cases same : other = hash
      · subst same
        simp [Payable, Storage.spend, Message.mintHash]
      · simp [Payable, Storage.spend, Message.mintHash, same]

/-! ## The loop -/

theorem readWord_add (words : List Element) (index offset : Nat) :
    readWord words (index + offset) = readWord (words.drop index) offset := by
  rw [readWord, readWord, List.getElem?_drop]

@[simp]
theorem readWord_cons_zero (word : Element) (words : List Element) :
    readWord (word :: words) 0 = .ok word :=
  rfl

@[simp]
theorem readWord_cons_succ (word : Element) (words : List Element) (index : Nat) :
    readWord (word :: words) (index + 1) = readWord words index :=
  rfl

@[simp]
theorem readWord_nil (index : Nat) :
    readWord [] index = .error (.panic "array out-of-bounds access") :=
  rfl

/-- A mint is read off the words under the cursor. -/
theorem verifyMint_eq_ok_iff {index next : Nat} {words rest : List Element} {kind : Element}
    {state after : State W} (dropped : words.drop index = kind :: rest) :
    verifyMint index words state = .ok (after, next) ↔
      ∃ noteKind value hash, settleMint noteKind value hash state = .ok after ∧
        rest = noteKind :: value :: hash :: words.drop next ∧ next = index + 4 := by
  have behind : words.drop (index + 4) = rest.drop 3 := by
    rw [← List.drop_drop, dropped]
    rfl
  simp only [verifyMint, readWord_add words index, dropped, readWord_cons_succ]
  rcases rest with _ | ⟨noteKind, _ | ⟨value, _ | ⟨hash, rest⟩⟩⟩
  · simp
  · simp
  · simp
  · simp only [readWord_cons_succ, readWord_cons_zero, ok_bind, bind_eq_ok_iff, pure_eq_ok_iff,
      Prod.mk.injEq]
    constructor
    · rintro ⟨_, settled, rfl, rfl⟩
      exact ⟨noteKind, value, hash, settled, by rw [behind]; rfl, rfl⟩
    · rintro ⟨_, _, _, settled, restEq, rfl⟩
      cases restEq
      exact ⟨after, settled, rfl, rfl⟩

/-- So is a burn. -/
theorem verifyBurn_eq_ok_iff {index next : Nat} {words rest : List Element}
    {kind height : Element} {state after : State W} (dropped : words.drop index = kind :: rest) :
    verifyBurn keccak transfer index words height state = .ok (after, next) ↔
      ∃ noteKind value hash burnAddr,
        settleBurn keccak transfer height noteKind value hash (bytes32ToAddress burnAddr) state =
          .ok after ∧
        rest = noteKind :: value :: hash :: burnAddr :: words.drop next ∧ next = index + 5 := by
  have behind : words.drop (index + 5) = rest.drop 4 := by
    rw [← List.drop_drop, dropped]
    rfl
  simp only [verifyBurn, readWord_add words index, dropped, readWord_cons_succ]
  rcases rest with _ | ⟨noteKind, _ | ⟨value, _ | ⟨hash, _ | ⟨burnAddr, rest⟩⟩⟩⟩
  · simp
  · simp
  · simp
  · simp
  · simp only [readWord_cons_succ, readWord_cons_zero, ok_bind, bind_eq_ok_iff, pure_eq_ok_iff,
      Prod.mk.injEq]
    constructor
    · rintro ⟨_, settled, rfl, rfl⟩
      exact ⟨noteKind, value, hash, burnAddr, settled, by rw [behind]; rfl, rfl⟩
    · rintro ⟨_, _, _, _, settled, restEq, rfl⟩
      cases restEq
      exact ⟨after, settled, rfl, rfl⟩

/-- One round of the loop skips a zero word or settles a message. -/
theorem verifyMessages_eq_ok_iff {index next : Nat} {words rest : List Element}
    {kind height : Element} {state after : State W} (dropped : words.drop index = kind :: rest) :
    verifyMessages keccak transfer index words height state = .ok (after, next) ↔
      (kind = 0 ∧ after = state ∧ next = index + 1) ∨
        ∃ message, settleMessage keccak transfer height state message = .ok after ∧
          kind :: rest = message.words ++ words.drop next ∧
          next = index + message.words.length := by
  have read : readWord words index = .ok kind := by
    have shifted := readWord_add words index 0
    rw [dropped] at shifted
    exact shifted
  rw [verifyMessages, read, ok_bind]
  by_cases zero : kind = 0
  · rw [if_pos zero, pure_eq_ok_iff, Prod.mk.injEq]
    constructor
    · rintro ⟨rfl, rfl⟩
      exact Or.inl ⟨zero, rfl, rfl⟩
    · rintro (⟨_, rfl, rfl⟩ | ⟨message, _, wordsEq, _⟩)
      · exact ⟨rfl, rfl⟩
      · rw [zero] at wordsEq
        rcases Message.words_append_eq_cons wordsEq with
          ⟨_, _, _, _, kindEq, _⟩ | ⟨crossChain, _, _, _, _, _, kindEq, _⟩
        · exact absurd kindEq (by decide)
        · cases crossChain <;> exact absurd kindEq (by decide)
  by_cases mint : kind = 2
  · rw [if_neg zero, if_pos mint, verifyMint_eq_ok_iff dropped]
    constructor
    · rintro ⟨noteKind, value, hash, settled, restEq, nextEq⟩
      exact Or.inr ⟨.mint noteKind value hash, settled, by rw [mint, restEq]; rfl, nextEq⟩
    · rintro (⟨kindEq, _⟩ | ⟨message, settled, wordsEq, nextEq⟩)
      · exact absurd kindEq zero
      · rcases Message.words_append_eq_cons wordsEq with
          ⟨noteKind, value, hash, rfl, _, restEq⟩ | ⟨crossChain, _, _, _, _, _, kindEq, _⟩
        · exact ⟨noteKind, value, hash, settled, restEq, nextEq⟩
        · rw [mint] at kindEq
          cases crossChain <;> exact absurd kindEq (by decide)
  by_cases burn : kind = 3 ∨ kind = 4
  · rw [if_neg zero, if_neg mint, if_pos burn, verifyBurn_eq_ok_iff dropped]
    constructor
    · rintro ⟨noteKind, value, hash, burnAddr, settled, restEq, nextEq⟩
      rcases burn with rfl | rfl
      · exact Or.inr ⟨.burn false noteKind value hash burnAddr, settled, by rw [restEq]; rfl, nextEq⟩
      · exact Or.inr ⟨.burn true noteKind value hash burnAddr, settled, by rw [restEq]; rfl, nextEq⟩
    · rintro (⟨kindEq, _⟩ | ⟨message, settled, wordsEq, nextEq⟩)
      · exact absurd kindEq zero
      · rcases Message.words_append_eq_cons wordsEq with
          ⟨_, _, _, _, kindEq, _⟩ | ⟨crossChain, noteKind, value, hash, burnAddr, rfl, _, restEq⟩
        · exact absurd kindEq mint
        · refine ⟨noteKind, value, hash, burnAddr, settled, restEq, nextEq.trans ?_⟩
          cases crossChain <;> rfl
  · rw [if_neg zero, if_neg mint, if_neg burn]
    constructor
    · rintro ⟨⟩
    · rintro (⟨kindEq, _⟩ | ⟨message, _, wordsEq, _⟩)
      · exact absurd kindEq zero
      · rcases Message.words_append_eq_cons wordsEq with
          ⟨_, _, _, _, kindEq, _⟩ | ⟨crossChain, _, _, _, _, _, kindEq, _⟩
        · exact absurd kindEq mint
        · cases crossChain
          · exact absurd (Or.inl kindEq) burn
          · exact absurd (Or.inr kindEq) burn

/-- The loop settles exactly the messages that the cursor reads. -/
theorem verifyAllFrom_eq_ok_iff {words : List Element} {height : Element} {rounds index : Nat}
    {state after : State W} (enough : words.length - index ≤ rounds) :
    verifyAllFrom keccak transfer words words.length height rounds index state = .ok after ↔
      ∃ messages, parseMessages (words.drop index) = some messages ∧
        messages.foldlM (settleMessage keccak transfer height) state = .ok after := by
  induction rounds generalizing index state with
  | zero =>
      have ended : words.drop index = [] := List.drop_eq_nil_of_le (by omega)
      rw [ended, verifyAllFrom]
      simp [parseMessages, pure, Except.pure]
  | succ rounds ih =>
      rw [verifyAllFrom]
      by_cases inside : index < words.length
      · obtain ⟨kind, rest, dropped⟩ : ∃ kind rest, words.drop index = kind :: rest :=
          ⟨_, _, List.drop_eq_getElem_cons inside⟩
        have restEq : words.drop (index + 1) = rest := by
          rw [← List.drop_drop, dropped]
          rfl
        rw [if_pos inside, dropped, bind_eq_ok_iff]
        constructor
        · rintro ⟨⟨middle, next⟩, taken, remaining⟩
          rcases (verifyMessages_eq_ok_iff dropped).mp taken with
            ⟨zero, rfl, rfl⟩ | ⟨message, settled, wordsEq, rfl⟩
          · obtain ⟨messages, parsed, folded⟩ := (ih (by omega)).mp remaining
            rw [restEq] at parsed
            exact ⟨messages, parseMessages_cons_eq_some_iff.mpr (Or.inl ⟨zero, parsed⟩), folded⟩
          · have positive := message.length_words_pos
            obtain ⟨messages, parsed, folded⟩ := (ih (by omega)).mp remaining
            refine ⟨message :: messages, parseMessages_cons_eq_some_iff.mpr
              (Or.inr ⟨message, _, messages, wordsEq, parsed, rfl⟩), ?_⟩
            rw [List.foldlM_cons, settled]
            exact folded
        · rintro ⟨messages, parsed, folded⟩
          rcases parseMessages_cons_eq_some_iff.mp parsed with
            ⟨zero, parsedRest⟩ | ⟨message, behind, tail, wordsEq, parsedTail, rfl⟩
          · exact ⟨(state, index + 1),
              (verifyMessages_eq_ok_iff dropped).mpr (Or.inl ⟨zero, rfl, rfl⟩),
              (ih (by omega)).mpr ⟨messages, by rw [restEq]; exact parsedRest, folded⟩⟩
          · have positive := message.length_words_pos
            have behindEq : words.drop (index + message.words.length) = behind := by
              rw [← List.drop_drop, dropped, wordsEq, List.drop_left]
            rw [List.foldlM_cons, bind_eq_ok_iff] at folded
            obtain ⟨middle, settled, folded⟩ := folded
            exact ⟨(middle, index + message.words.length),
              (verifyMessages_eq_ok_iff dropped).mpr
                (Or.inr ⟨message, settled, by rw [behindEq]; exact wordsEq, rfl⟩),
              (ih (by omega)).mpr ⟨tail, by rw [behindEq]; exact parsedTail, folded⟩⟩
      · have ended : words.drop index = [] := List.drop_eq_nil_of_le (by omega)
        rw [if_neg inside, ended]
        simp [parseMessages, pure, Except.pure]

theorem verifyAllMessages_eq_ok_iff {publicInputs : List Element} {skipCount messagesLength : Nat}
    {height : Element} {state after : State W}
    (length : publicInputs.length = skipCount + messagesLength) :
    verifyAllMessages keccak transfer skipCount publicInputs messagesLength height state =
        .ok after ↔
      ∃ messages, parseMessages (publicInputs.drop skipCount) = some messages ∧
        messages.foldlM (settleMessage keccak transfer height) state = .ok after := by
  rw [verifyAllMessages, ← length]
  exact verifyAllFrom_eq_ok_iff (by omega)

/-- Messages settle one after the other exactly when each of them would settle
alone and no deposit is used twice. -/
theorem foldlM_settleMessage_eq_ok_iff (standard : transfer.Standard) {height : Element}
    {state : State W} {messages : List Message} :
    (∃ next, messages.foldlM (settleMessage keccak transfer height) state = .ok next) ↔
      (∀ message ∈ messages, Payable state.storage message) ∧
        (messages.filterMap Message.mintHash).Nodup := by
  induction messages generalizing state with
  | nil => simp [pure, Except.pure]
  | cons message messages ih =>
      have split : (∃ next, (message :: messages).foldlM (settleMessage keccak transfer height)
          state = .ok next) ↔
            ∃ middle, settleMessage keccak transfer height state message = .ok middle ∧
              ∃ next, messages.foldlM (settleMessage keccak transfer height) middle = .ok next := by
        simp only [List.foldlM_cons, bind_eq_ok_iff]
        constructor
        · rintro ⟨next, middle, first, rest⟩
          exact ⟨middle, first, next, rest⟩
        · rintro ⟨middle, first, next, rest⟩
          exact ⟨next, middle, first, rest⟩
      rw [split, List.forall_mem_cons]
      cases message with
      | mint noteKind value hash =>
          have hashes : (Message.mint noteKind value hash :: messages).filterMap
              Message.mintHash = hash :: messages.filterMap Message.mintHash := rfl
          rw [hashes, List.nodup_cons]
          have apart : (∀ message ∈ messages, message.mintHash ≠ some hash) ↔
              hash ∉ messages.filterMap Message.mintHash := by
            simp [List.mem_filterMap]
          constructor
          · rintro ⟨middle, first, rest⟩
            obtain ⟨deposit, rfl⟩ := settleMint_eq_ok_iff.mp first
            obtain ⟨payable, nodup⟩ := ih.mp rest
            have others := fun message mem => payable_spend_iff.mp (payable message mem)
            exact ⟨⟨deposit, fun message mem => (others message mem).1⟩,
              apart.mp fun message mem => (others message mem).2, nodup⟩
          · rintro ⟨⟨deposit, payable⟩, fresh, nodup⟩
            exact ⟨_, settleMint_eq_ok_iff.mpr ⟨deposit, rfl⟩, ih.mpr ⟨fun message mem =>
              payable_spend_iff.mpr ⟨payable message mem, apart.mpr fresh message mem⟩, nodup⟩⟩
      | burn crossChain noteKind value hash burnAddr =>
          have hashes : (Message.burn crossChain noteKind value hash burnAddr :: messages).filterMap
              Message.mintHash = messages.filterMap Message.mintHash := rfl
          rw [hashes]
          constructor
          · rintro ⟨middle, first, rest⟩
            have supported := supported_of_settleBurn first
            obtain ⟨next, settled, same⟩ := settleBurn_eq_ok standard supported
            obtain rfl := Except.ok.inj (settled.symm.trans first)
            obtain ⟨payable, nodup⟩ := ih.mp rest
            exact ⟨⟨supported, fun message mem =>
              (payable_congr same message).mp (payable message mem)⟩, nodup⟩
          · rintro ⟨⟨supported, payable⟩, nodup⟩
            obtain ⟨next, settled, same⟩ := settleBurn_eq_ok standard supported
            exact ⟨next, settled, ih.mpr ⟨fun message mem =>
              (payable_congr same message).mpr (payable message mem), nodup⟩⟩

/-! ## What settlement leaves alone -/

/-- The part of the storage on which the recipient and the fee of a burn depend. -/
structure SameSettings (storage next : Storage) : Prop where
  tokens : next.tokens = storage.tokens
  substitutedBurns : next.substitutedBurns = storage.substitutedBurns
  burnFee : next.burnFee = storage.burnFee
  feeSink : next.feeSink = storage.feeSink

theorem SameSettings.refl (storage : Storage) : SameSettings storage storage :=
  ⟨rfl, rfl, rfl, rfl⟩

theorem SameSettings.trans {storage middle next : Storage} (first : SameSettings storage middle)
    (second : SameSettings middle next) : SameSettings storage next :=
  ⟨second.tokens.trans first.tokens, second.substitutedBurns.trans first.substitutedBurns,
    second.burnFee.trans first.burnFee, second.feeSink.trans first.feeSink⟩

theorem SameSettings.burnRecipient {storage next : Storage} (same : SameSettings storage next)
    (height noteKind value hash : Element) (burnAddr : Address) :
    burnRecipient keccak next height noteKind value hash burnAddr =
      burnRecipient keccak storage height noteKind value hash burnAddr := by
  unfold Rollup.burnRecipient
  rw [same.substitutedBurns]

theorem SameSettings.computeBurnFee {storage next : Storage} (same : SameSettings storage next)
    (value : Element) : computeBurnFee next value = computeBurnFee storage value := by
  unfold Rollup.computeBurnFee
  rw [same.burnFee]

theorem sameSettings_of_settleMessage {height : Element} {state next : State W} {message : Message}
    (settled : settleMessage keccak transfer height state message = .ok next) :
    SameSettings state.storage next.storage := by
  cases message with
  | mint noteKind value hash =>
      rcases settleMint_eq_ok_iff.mp settled with ⟨_, rfl⟩
      exact ⟨rfl, rfl, rfl, rfl⟩
  | burn crossChain noteKind value hash burnAddr =>
      cases burnSettles_of_settleBurn settled with
      | unpaid | feeKept | feeSent => exact ⟨rfl, rfl, rfl, rfl⟩

theorem sameSettings_of_foldlM {height : Element} {state next : State W} {messages : List Message}
    (settled : messages.foldlM (settleMessage keccak transfer height) state = .ok next) :
    SameSettings state.storage next.storage := by
  induction messages generalizing state with
  | nil =>
      obtain rfl := pure_eq_ok_iff.mp settled
      exact .refl state.storage
  | cons message messages ih =>
      rw [List.foldlM_cons, bind_eq_ok_iff] at settled
      rcases settled with ⟨middle, first, rest⟩
      exact (sameSettings_of_settleMessage first).trans (ih rest)

end Ciphera.Rollup
