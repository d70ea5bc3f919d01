import Mathlib.Data.List.Basic

/-!
# Sponges

A sponge takes its words a block at a time: a block is injected into the state and the state
is permuted.  A sponge that is fed one word after the other buffers the words of the current
block, and it permutes only when the next word finds the buffer full.  What it ends in is the
same.
-/

namespace Ciphera.Lib

universe u v

/-- How many words make a block, how a block enters the state, and how the state is mixed. -/
structure Sponge (Word : Type u) (State : Type v) where
  rate : Nat
  rate_pos : 0 < rate
  inject : State → List Word → State
  permute : State → State

namespace Sponge

variable {Word : Type u} {State : Type v} (sponge : Sponge Word State)

/-- Add a block to the state and permute it. -/
def absorbBlock (state : State) (block : List Word) : State :=
  sponge.permute (sponge.inject state block)

/-- Full blocks are absorbed until the words left fit in one block, which is absorbed last. -/
def absorbBlocks (state : State) (words : List Word) : State :=
  if words.length ≤ sponge.rate then
    sponge.absorbBlock state words
  else
    absorbBlocks (sponge.absorbBlock state (words.take sponge.rate)) (words.drop sponge.rate)
termination_by words.length
decreasing_by
  have rate_pos := sponge.rate_pos
  rw [List.length_drop]
  omega

/-- A sponge between two words. -/
structure Buffer (Word : Type u) (State : Type v) where
  state : State
  pending : List Word

/-- Take one more word; a full block is absorbed first. -/
def feed (buffer : Buffer Word State) (word : Word) : Buffer Word State :=
  if buffer.pending.length < sponge.rate then
    { buffer with pending := buffer.pending ++ [word] }
  else
    { state := sponge.absorbBlock buffer.state buffer.pending, pending := [word] }

/-- Absorb the last block. -/
def finish (buffer : Buffer Word State) : State :=
  sponge.absorbBlock buffer.state buffer.pending

variable {sponge}

@[simp]
theorem absorbBlocks_of_le {state : State} {words : List Word}
    (fits : words.length ≤ sponge.rate) :
    sponge.absorbBlocks state words = sponge.absorbBlock state words := by
  rw [absorbBlocks, if_pos fits]

/-- A full block in front is absorbed first. -/
theorem absorbBlocks_append {state : State} {block words : List Word}
    (full : block.length = sponge.rate) (more : words ≠ []) :
    sponge.absorbBlocks state (block ++ words) =
      sponge.absorbBlocks (sponge.absorbBlock state block) words := by
  have someMore := List.length_pos_iff.mpr more
  have long : ¬(block ++ words).length ≤ sponge.rate := by
    rw [List.length_append]
    omega
  rw [absorbBlocks, if_neg long, List.take_left' full, List.drop_left' full]

@[simp]
theorem feed_of_lt {buffer : Buffer Word State} {word : Word}
    (room : buffer.pending.length < sponge.rate) :
    sponge.feed buffer word = { buffer with pending := buffer.pending ++ [word] } := by
  rw [feed, if_pos room]

@[simp]
theorem feed_of_full {buffer : Buffer Word State} {word : Word}
    (full : buffer.pending.length = sponge.rate) :
    sponge.feed buffer word =
      { state := sponge.absorbBlock buffer.state buffer.pending, pending := [word] } := by
  rw [feed, if_neg (Nat.not_lt.mpr (Nat.le_of_eq full.symm))]

/-- The buffer counts the words modulo the rate. -/
theorem feed_length_modEq {buffer : Buffer Word State} {word : Word}
    (fits : buffer.pending.length ≤ sponge.rate) :
    (sponge.feed buffer word).pending.length % sponge.rate =
      (buffer.pending.length + 1) % sponge.rate := by
  rcases Nat.lt_or_eq_of_le fits with room | full
  · rw [feed_of_lt room, List.length_append, List.length_singleton]
  · rw [feed_of_full full, full, Nat.add_mod_left, List.length_singleton]

theorem feed_length_pos {buffer : Buffer Word State} {word : Word} :
    0 < (sponge.feed buffer word).pending.length := by
  unfold feed
  split
  next => rw [List.length_append]; exact Nat.succ_pos _
  next => exact Nat.one_pos

theorem feed_length_le {buffer : Buffer Word State} {word : Word} :
    (sponge.feed buffer word).pending.length ≤ sponge.rate := by
  unfold feed
  split
  next room => exact Nat.le_trans (Nat.le_of_eq List.length_append) room
  next => exact sponge.rate_pos

theorem foldl_feed_length {buffer : Buffer Word State} (words : List Word)
    (fits : buffer.pending.length ≤ sponge.rate) :
    (words.foldl sponge.feed buffer).pending.length ≤ sponge.rate ∧
      (words.foldl sponge.feed buffer).pending.length % sponge.rate =
        (buffer.pending.length + words.length) % sponge.rate ∧
      (words ≠ [] → 0 < (words.foldl sponge.feed buffer).pending.length) := by
  induction words generalizing buffer with
  | nil => exact ⟨fits, rfl, fun someWords => absurd rfl someWords⟩
  | cons word words ih =>
      rw [List.foldl_cons]
      have nextFits : (sponge.feed buffer word).pending.length ≤ sponge.rate := feed_length_le
      rcases ih nextFits with ⟨le, modEq, pos⟩
      refine ⟨le, ?_, fun _ => ?_⟩
      · rw [modEq, Nat.add_mod, feed_length_modEq fits, ← Nat.add_mod, List.length_cons,
          Nat.add_assoc, Nat.add_comm 1]
      · by_cases done : words = []
        · rw [done]
          exact feed_length_pos
        · exact pos done

/-- A buffer that was fed full blocks holds the last of them. -/
theorem foldl_feed_full {state : State} {words : List Word} (someWords : words ≠ [])
    (fullBlocks : sponge.rate ∣ words.length) :
    (words.foldl sponge.feed { state := state, pending := [] }).pending.length =
      sponge.rate := by
  have emptyFits : (Buffer.mk state ([] : List Word)).pending.length ≤ sponge.rate :=
    Nat.zero_le sponge.rate
  rcases foldl_feed_length words emptyFits with ⟨le, modEq, pos⟩
  rw [List.length_nil, Nat.zero_add, Nat.mod_eq_zero_of_dvd fullBlocks] at modEq
  exact Nat.le_antisymm le (Nat.le_of_dvd (pos someWords) (Nat.dvd_of_mod_eq_zero modEq))

/-- Feeding the words one at a time ends where absorbing them in blocks does. -/
theorem finish_foldl_feed {buffer : Buffer Word State} {words : List Word}
    (fits : buffer.pending.length ≤ sponge.rate) :
    sponge.finish (words.foldl sponge.feed buffer) =
      sponge.absorbBlocks buffer.state (buffer.pending ++ words) := by
  induction words generalizing buffer with
  | nil => rw [List.foldl_nil, List.append_nil, absorbBlocks_of_le fits, finish]
  | cons word words ih =>
      rw [List.foldl_cons, ih feed_length_le]
      rcases Nat.lt_or_eq_of_le fits with room | full
      · rw [feed_of_lt room, List.append_assoc, List.singleton_append]
      · rw [feed_of_full full, List.singleton_append,
          absorbBlocks_append full (List.cons_ne_nil word words)]

end Sponge

end Ciphera.Lib
