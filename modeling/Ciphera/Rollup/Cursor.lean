import Ciphera.Rollup.Settle
import Mathlib.Data.List.ReduceOption

/-!
# The cursor of the contract

Where the loop over the message words reads the kind of a message.  Over a
stream of messages and single zeros it reads one at the start of each of them
and at no other place, and it stops where the stream does.
-/

namespace Ciphera.Rollup

open Ciphera.Lib

/-- The words of an entry of the stream: a message, or a zero that is skipped. -/
def entryWords : Option Message → List Element
  | none => [0]
  | some message => message.words

/-- The places at which entries start, and the end of the last one. -/
def entryStarts : Nat → List (Option Message) → List Nat
  | offset, [] => [offset]
  | offset, entry :: entries => offset :: entryStarts (offset + (entryWords entry).length) entries

variable {W : Type} (keccak : Keccak) (transfer : Transfer W)

/-- The loop of `verifyAllMessages`, with the places at which it reads a kind and the place at
which it stops. -/
def visitAllFrom (publicInputs : List Element) (stop : Nat) (height : Element) :
    Nat → Nat → State W → Outcome (State W × List Nat)
  | 0, index, state => .ok (state, [index])
  | rounds + 1, index, state =>
      if index < stop then do
        let (state, next) ← verifyMessages keccak transfer index publicInputs height state
        let (state, visited) ← visitAllFrom publicInputs stop height rounds next state
        pure (state, index :: visited)
      else .ok (state, [index])

/-- The messages of a rollup, with the places where they start. -/
def visitAllMessages (skipCount : Nat) (publicInputs : List Element) (messagesLength : Nat)
    (height : Element) (state : State W) : Outcome (State W × List Nat) :=
  visitAllFrom keccak transfer publicInputs (skipCount + messagesLength) height messagesLength
    skipCount state

variable {keccak transfer} {publicInputs : List Element} {stop : Nat} {height : Element}

/-- Apart from the places it is the loop of the contract. -/
theorem verifyAllFrom_eq_map_visitAllFrom {rounds index : Nat} {state : State W} :
    verifyAllFrom keccak transfer publicInputs stop height rounds index state =
      (visitAllFrom keccak transfer publicInputs stop height rounds index state).map Prod.fst := by
  induction rounds generalizing index state with
  | zero => rfl
  | succ rounds ih =>
      rw [verifyAllFrom, visitAllFrom]
      split_ifs
      · cases verifyMessages keccak transfer index publicInputs height state with
        | error stopped => rfl
        | ok result =>
            rcases result with ⟨state, next⟩
            rw [ok_bind, ok_bind]
            dsimp only
            rw [ih]
            cases visitAllFrom keccak transfer publicInputs stop height rounds next state <;> rfl
      · rfl

theorem verifyAllMessages_eq_map_visitAllMessages {skipCount messagesLength : Nat}
    {state : State W} :
    verifyAllMessages keccak transfer skipCount publicInputs messagesLength height state =
      (visitAllMessages keccak transfer skipCount publicInputs messagesLength height state).map
        Prod.fst :=
  verifyAllFrom_eq_map_visitAllFrom

theorem readWord_of_drop {words rest : List Element} {index : Nat} {word : Element}
    (dropped : words.drop index = word :: rest) : readWord words index = .ok word := by
  have shifted := readWord_add words index 0
  rw [dropped] at shifted
  exact shifted

theorem verifyMessages_zero {index : Nat} {rest : List Element} {state : State W}
    (dropped : publicInputs.drop index = 0 :: rest) :
    verifyMessages keccak transfer index publicInputs height state = .ok (state, index + 1) := by
  rw [verifyMessages, readWord_of_drop dropped, ok_bind]
  rfl

/-- A message under the cursor is settled, and the cursor moves behind it. -/
theorem verifyMessages_words {index : Nat} {message : Message} {rest : List Element}
    {state : State W} (dropped : publicInputs.drop index = message.words ++ rest) :
    verifyMessages keccak transfer index publicInputs height state =
      (settleMessage keccak transfer height state message).map
        fun next => (next, index + message.words.length) := by
  have reads := fun offset => readWord_add publicInputs index offset
  rw [dropped] at reads
  cases message with
  | mint noteKind value hash =>
      rw [verifyMessages, readWord_of_drop dropped, ok_bind]
      change verifyMint index publicInputs state = (settleMint noteKind value hash state).map _
      rw [verifyMint, reads, reads, reads]
      change (settleMint noteKind value hash state >>= _) = _
      cases settleMint noteKind value hash state <;> rfl
  | burn crossChain noteKind value hash burnAddr =>
      have settled : verifyBurn keccak transfer index publicInputs height state =
          (settleBurn keccak transfer height noteKind value hash (bytes32ToAddress burnAddr)
            state).map fun next => (next, index + 5) := by
        rw [verifyBurn, reads, reads, reads, reads]
        cases crossChain with
        | false | true =>
            change (settleBurn keccak transfer height noteKind value hash
              (bytes32ToAddress burnAddr) state >>= _) = _
            cases settleBurn keccak transfer height noteKind value hash
              (bytes32ToAddress burnAddr) state <;> rfl
      cases crossChain with
      | false | true =>
          rw [verifyMessages, readWord_of_drop dropped, ok_bind]
          exact settled

theorem length_entryWords_pos (entry : Option Message) : 0 < (entryWords entry).length := by
  cases entry with
  | none => exact Nat.one_pos
  | some message => exact message.length_words_pos

/-- Over a stream of entries the loop settles its messages in their order, reads a kind where an
entry starts and nowhere else, and stops at the end. -/
theorem visitAllFrom_entries {entries : List (Option Message)} {rounds index : Nat}
    {state : State W} (dropped : publicInputs.drop index = entries.flatMap entryWords)
    (ends : stop = index + (entries.flatMap entryWords).length) (enough : entries.length ≤ rounds) :
    visitAllFrom keccak transfer publicInputs stop height rounds index state =
      (entries.reduceOption.foldlM (settleMessage keccak transfer height) state).map
        fun next => (next, entryStarts index entries) := by
  induction entries generalizing rounds index state with
  | nil =>
      obtain rfl : stop = index := ends
      cases rounds with
      | zero => rfl
      | succ rounds =>
          rw [visitAllFrom, if_neg (Nat.lt_irrefl _)]
          rfl
  | cons entry entries ih =>
      obtain ⟨rounds, rfl⟩ : ∃ fewer, rounds = fewer + 1 :=
        Nat.exists_eq_succ_of_ne_zero (Nat.ne_of_gt (Nat.lt_of_lt_of_le (Nat.succ_pos _) enough))
      rw [List.flatMap_cons] at dropped ends
      rw [List.length_append, ← Nat.add_assoc] at ends
      have behind : publicInputs.drop (index + (entryWords entry).length) =
          entries.flatMap entryWords := by
        rw [← List.drop_drop, dropped]
        exact List.drop_left
      have inside : index < stop := by
        have positive := length_entryWords_pos entry
        omega
      have later : ∀ state, visitAllFrom keccak transfer publicInputs stop height rounds
          (index + (entryWords entry).length) state = _ := fun state =>
        ih behind ends (Nat.le_of_succ_le_succ enough)
      rw [visitAllFrom, if_pos inside]
      cases entry with
      | none =>
          rw [verifyMessages_zero dropped, ok_bind, List.reduceOption_cons_of_none]
          change (visitAllFrom keccak transfer publicInputs stop height rounds
            (index + (entryWords none).length) state >>= _) = _
          rw [later state]
          cases entries.reduceOption.foldlM (settleMessage keccak transfer height) state <;> rfl
      | some message =>
          rw [verifyMessages_words dropped, List.reduceOption_cons_of_some, List.foldlM_cons]
          cases settleMessage keccak transfer height state message with
          | error stopped => rfl
          | ok middle =>
              rw [ok_bind]
              change (visitAllFrom keccak transfer publicInputs stop height rounds
                (index + (entryWords (some message)).length) middle >>= _) = _
              rw [later middle]
              cases entries.reduceOption.foldlM (settleMessage keccak transfer height) middle <;> rfl

@[simp]
theorem getLast?_entryStarts (offset : Nat) (entries : List (Option Message)) :
    (entryStarts offset entries).getLast? =
      some (offset + (entries.flatMap entryWords).length) := by
  induction entries generalizing offset with
  | nil => rfl
  | cons entry entries ih =>
      have rest := ih (offset + (entryWords entry).length)
      rw [entryStarts, List.getLast?_cons, rest, List.flatMap_cons, List.length_append,
        Nat.add_assoc]
      rfl

/-! ## Streams that read back -/

/-- The contract reads exactly these messages from the words: behind any three words that are no
messages, verification settles them one after the other, reads a kind at the start of each of
them and of each zero between and behind them, and stops at the end of the words. -/
structure ReadsBack (words : List Element) (messages : List Message)
    (entries : List (Option Message)) : Prop where
  wordsEq : entries.flatMap entryWords = words
  messagesEq : entries.reduceOption = messages
  visits : ∀ {W : Type} (keccak : Keccak) (transfer : Transfer W) (height : Element)
      (state : State W) (header : List Element), header.length = 3 →
    visitAllMessages keccak transfer 3 (header ++ words) words.length height state =
      (messages.foldlM (settleMessage keccak transfer height) state).map
        fun next => (next, entryStarts 3 entries)
  settles : ∀ {W : Type} (keccak : Keccak) (transfer : Transfer W) (height : Element)
      (state : State W) (header : List Element), header.length = 3 →
    verifyAllMessages keccak transfer 3 (header ++ words) words.length height state =
      messages.foldlM (settleMessage keccak transfer height) state
  ends : (entryStarts 3 entries).getLast? = some (3 + words.length)

theorem length_le_flatMap_entryWords (entries : List (Option Message)) :
    entries.length ≤ (entries.flatMap entryWords).length := by
  induction entries with
  | nil => exact Nat.le_refl 0
  | cons entry entries ih =>
      have positive := length_entryWords_pos entry
      rw [List.flatMap_cons, List.length_append, List.length_cons]
      omega

theorem visitAllMessages_entries {entries : List (Option Message)} {header : List Element}
    {state : State W} (three : header.length = 3) :
    visitAllMessages keccak transfer 3 (header ++ entries.flatMap entryWords)
        (entries.flatMap entryWords).length height state =
      (entries.reduceOption.foldlM (settleMessage keccak transfer height) state).map
        fun next => (next, entryStarts 3 entries) := by
  apply visitAllFrom_entries
  · rw [← three]
    exact List.drop_left
  · rfl
  · exact length_le_flatMap_entryWords entries

theorem readsBack_entries (entries : List (Option Message)) :
    ReadsBack (entries.flatMap entryWords) entries.reduceOption entries where
  wordsEq := rfl
  messagesEq := rfl
  visits _ _ _ _ _ three := visitAllMessages_entries three
  settles keccak transfer height state header three := by
    rw [verifyAllMessages_eq_map_visitAllMessages, visitAllMessages_entries three]
    cases entries.reduceOption.foldlM (settleMessage keccak transfer height) state <;> rfl
  ends := getLast?_entryStarts 3 entries

end Ciphera.Rollup
