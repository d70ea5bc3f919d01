import Ciphera.Element

/-!
# Settlement messages

The public inputs of a rollup proof carry a stream of words from which the
contract reads mints and burns with a moving cursor.  A mint takes four words
and a burn five; a zero word is skipped, and any other leading word stops the
settlement.
-/

namespace Ciphera.Rollup

/-- A message the contract settles.  Burns come in two kinds, of which the
second is reserved for cross-chain burns. -/
inductive Message
  | mint (noteKind value hash : Element)
  | burn (crossChain : Bool) (noteKind value hash burnAddr : Element)
  deriving DecidableEq, Repr

namespace Message

/-- The words of a message, in stream order. -/
def words : Message → List Element
  | mint noteKind value hash => [2, noteKind, value, hash]
  | burn false noteKind value hash burnAddr => [3, noteKind, value, hash, burnAddr]
  | burn true noteKind value hash burnAddr => [4, noteKind, value, hash, burnAddr]

/-- The value a message brings into the rollup. -/
def minted : Message → Nat
  | mint _ value _ => value.toNat
  | burn .. => 0

/-- The value a message takes out of the rollup. -/
def burned : Message → Nat
  | mint .. => 0
  | burn _ _ value _ _ => value.toNat

end Message

/-- The messages under the contract's cursor, or `none` when it meets a word
that starts no message or runs past the end of the stream. -/
def parseMessages : List Element → Option (List Message)
  | [] => some []
  | kind :: rest =>
      if kind = 0 then parseMessages rest
      else if kind = 2 then
        match rest with
        | noteKind :: value :: hash :: rest =>
            (parseMessages rest).map (.mint noteKind value hash :: ·)
        | _ => none
      else if kind = 3 ∨ kind = 4 then
        match rest with
        | noteKind :: value :: hash :: burnAddr :: rest =>
            (parseMessages rest).map
              (.burn (decide (kind = 4)) noteKind value hash burnAddr :: ·)
        | _ => none
      else none

/-- The words of the contract's stream for a list of field elements. -/
def streamWords (words : List Base) : List Element := words.map Element.fromBase

/-- The messages that the contract's cursor reads from public message words. -/
def readMessages (words : List Base) : Option (List Message) := parseMessages (streamWords words)

/-- A stream that holds the given messages, followed by zeros only. -/
def Frames (words : List Element) (messages : List Message) : Prop :=
  ∃ count, words = messages.flatMap Message.words ++ List.replicate count 0

@[simp]
theorem parseMessages_zero_cons (rest : List Element) :
    parseMessages (0 :: rest) = parseMessages rest := by
  rw [parseMessages.eq_def]
  exact if_pos rfl

@[simp]
theorem parseMessages_words_append (message : Message) (rest : List Element) :
    parseMessages (message.words ++ rest) = (parseMessages rest).map (message :: ·) := by
  cases message with
  | mint noteKind value hash => simp [Message.words, parseMessages]
  | burn crossChain noteKind value hash burnAddr =>
      cases crossChain <;> simp [Message.words, parseMessages]

theorem Message.length_words_pos (message : Message) : 0 < message.words.length := by
  cases message with
  | mint noteKind value hash => simp [words]
  | burn crossChain noteKind value hash burnAddr => cases crossChain <;> simp [words]

/-- The leading word of a message tells its kind. -/
theorem Message.words_append_eq_cons {message : Message} {kind : Element}
    {rest behind : List Element} (wordsEq : kind :: rest = message.words ++ behind) :
    (∃ noteKind value hash, message = .mint noteKind value hash ∧ kind = 2 ∧
        rest = noteKind :: value :: hash :: behind) ∨
      ∃ crossChain noteKind value hash burnAddr,
        message = .burn crossChain noteKind value hash burnAddr ∧
          kind = (if crossChain then 4 else 3) ∧
          rest = noteKind :: value :: hash :: burnAddr :: behind := by
  cases message with
  | mint noteKind value hash =>
      cases wordsEq
      exact Or.inl ⟨_, _, _, rfl, rfl, rfl⟩
  | burn crossChain noteKind value hash burnAddr =>
      cases crossChain <;> cases wordsEq <;> exact Or.inr ⟨_, _, _, _, _, rfl, rfl, rfl⟩

/-- What the cursor meets first: a zero word or a message. -/
theorem parseMessages_cons_eq_some_iff {kind : Element} {rest : List Element}
    {messages : List Message} :
    parseMessages (kind :: rest) = some messages ↔
      (kind = 0 ∧ parseMessages rest = some messages) ∨
        ∃ message behind tail, kind :: rest = message.words ++ behind ∧
          parseMessages behind = some tail ∧ messages = message :: tail := by
  constructor
  · intro parsed
    by_cases zero : kind = 0
    · subst zero
      rw [parseMessages_zero_cons] at parsed
      exact Or.inl ⟨rfl, parsed⟩
    · refine Or.inr ?_
      rw [parseMessages.eq_def] at parsed
      simp only [if_neg zero] at parsed
      split_ifs at parsed with mint burn
      · split at parsed
        · obtain ⟨tail, tailEq, rfl⟩ := Option.map_eq_some_iff.mp parsed
          exact ⟨_, _, tail, by rw [mint]; rfl, tailEq, rfl⟩
        · cases parsed
      · split at parsed
        · obtain ⟨tail, tailEq, rfl⟩ := Option.map_eq_some_iff.mp parsed
          refine ⟨_, _, tail, ?_, tailEq, rfl⟩
          rcases burn with rfl | rfl <;> rfl
        · cases parsed
  · rintro (⟨rfl, parsed⟩ | ⟨message, behind, tail, wordsEq, parsed, rfl⟩)
    · rw [parseMessages_zero_cons, parsed]
    · rw [wordsEq, parseMessages_words_append, parsed, Option.map_some]

@[simp]
theorem parseMessages_replicate_append (count : Nat) (rest : List Element) :
    parseMessages (List.replicate count 0 ++ rest) = parseMessages rest := by
  induction count with
  | zero => rfl
  | succ count ih => rw [List.replicate_succ, List.cons_append, parseMessages_zero_cons, ih]

@[simp]
theorem parseMessages_flatMap_append (messages : List Message) (rest : List Element) :
    parseMessages (messages.flatMap Message.words ++ rest) =
      (parseMessages rest).map (messages ++ ·) := by
  induction messages with
  | nil => simp
  | cons message messages ih =>
      rw [List.flatMap_cons, List.append_assoc, parseMessages_words_append, ih, Option.map_map]
      rfl

/-- The cursor leaves a framed stream on its boundary. -/
theorem Frames.parseMessages_append {words : List Element} {messages : List Message}
    (frames : Frames words messages) (rest : List Element) :
    parseMessages (words ++ rest) = (parseMessages rest).map (messages ++ ·) := by
  obtain ⟨count, rfl⟩ := frames
  rw [List.append_assoc, parseMessages_flatMap_append, parseMessages_replicate_append]

theorem Frames.parseMessages_eq {words : List Element} {messages : List Message}
    (frames : Frames words messages) : parseMessages words = some messages := by
  have parsed := frames.parseMessages_append []
  simpa [parseMessages] using parsed

end Ciphera.Rollup
