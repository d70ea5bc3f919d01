import Ciphera.Smirk.Path

/-!
# Predicted roots

A node announces the root that its tree will have before it changes the tree.  The
prediction goes down the nodes with the changes of the batch and merges the hashes
on the way up through the cache, without touching a node.

Whatever calls and predictions have led to a tree, a batch that it accepts leaves it
with the root that is predicted for the batch.
-/

namespace Ciphera.Smirk

open Ciphera.Lib Ciphera.Lib.Merkle

namespace Node

section

variable (merge : Element → Element → Element) {C : Type} (hash : CacheHash C)

/-- `hash_with_inner` on an empty node, through the cache. -/
def hashWithEmptyThrough (DEPTH : Nat) :
    Nat → List (Change × Element) → Nat → C → Except String (Element × C)
  | 0, _, _, _ => .error "the smallest possible tree has depth 1"
  | 1, changes, pathDepth, cache => do
      let result ← hashWithEmpty merge DEPTH 1 changes pathDepth
      pure (result, cache)
  | depth + 2, changes, pathDepth, cache =>
      if changes.isEmpty then pure (emptyTreeHash merge (depth + 2), cache)
      else do
        let (lefts, rights) := splitChanges DEPTH pathDepth changes
        let (leftHash, cache) ← hashWithEmptyThrough DEPTH (depth + 1) lefts (pathDepth + 1) cache
        let (rightHash, cache) ← hashWithEmptyThrough DEPTH (depth + 1) rights (pathDepth + 1) cache
        pure (hash cache leftHash rightHash)

/-- `hash_with_inner`, through the cache. -/
def hashWithInnerThrough (DEPTH : Nat) :
    Node → List (Change × Element) → Nat → C → Except String (Element × C)
  | leaf currentElement, changes, pathDepth, cache => do
      let result ← hashWithInner merge DEPTH (leaf currentElement) changes pathDepth
      pure (result, cache)
  | parent left right _ _, changes, pathDepth, cache => do
      let (lefts, rights) := splitChanges DEPTH pathDepth changes
      let (leftHash, cache) ← hashWithInnerThrough DEPTH left lefts (pathDepth + 1) cache
      let (rightHash, cache) ← hashWithInnerThrough DEPTH right rights (pathDepth + 1) cache
      pure (hash cache leftHash rightHash)
  | empty depth, changes, pathDepth, cache =>
      hashWithEmptyThrough merge hash DEPTH depth changes pathDepth cache

/-- `hash_with`, through the cache. -/
def hashWithThrough (DEPTH : Nat) (node : Node) (insertElements removeElements : List Element)
    (cache : C) : Except String (Element × C) :=
  hashWithInnerThrough merge hash DEPTH node
    (sortChanges DEPTH (changesOf insertElements removeElements)) 0 cache

end

/-! ## The cache does not show -/

section

variable {merge : Element → Element → Element} {C : Type} {hash : CacheHash C} {cache : C}

variable (merge hash) in
/-- The computation through the cache ends as the one without it, and leaves a
truthful cache. -/
def Follows (through : Except String (Element × C)) (plain : Except String Element) : Prop :=
  (∃ message, through = .error message ∧ plain = .error message) ∨
    ∃ result after, through = .ok (result, after) ∧ plain = .ok result ∧ Truthful merge hash after

/-- A result that needs no hash. -/
theorem Follows.of_plain (truthful : Truthful merge hash cache) (plain : Except String Element) :
    Follows merge hash (plain >>= fun result => pure (result, cache)) plain := by
  cases plain with
  | error message => exact .inl ⟨message, rfl, rfl⟩
  | ok result => exact .inr ⟨result, cache, rfl, rfl, truthful⟩

/-- The hashes of two halves are merged through the cache. -/
theorem Follows.merged {left : Except String (Element × C)}
    {right : C → Except String (Element × C)} {plainLeft plainRight : Except String Element}
    (leftFollows : Follows merge hash left plainLeft)
    (rightFollows : ∀ cache, Truthful merge hash cache →
      Follows merge hash (right cache) plainRight) :
    Follows merge hash
      (left >>= fun leftAnswer => right leftAnswer.2 >>= fun rightAnswer =>
        pure (hash rightAnswer.2 leftAnswer.1 rightAnswer.1))
      (plainLeft >>= fun leftHash => plainRight >>= fun rightHash =>
        pure (merge leftHash rightHash)) := by
  rcases leftFollows with ⟨message, rfl, rfl⟩ | ⟨leftHash, cache, rfl, rfl, truthful⟩
  · exact .inl ⟨message, rfl, rfl⟩
  · rcases rightFollows cache truthful with
      ⟨message, rightEq, rfl⟩ | ⟨rightHash, after, rightEq, rfl, truthful⟩
    · exact .inl ⟨message, by rw [ok_bind, rightEq, error_bind], rfl⟩
    · apply Or.inr
      refine ⟨merge leftHash rightHash, (hash after leftHash rightHash).2, ?_, rfl,
        truthful.next _ _⟩
      rw [ok_bind, rightEq, ok_bind, ← truthful.answer]
      rfl

theorem hashWithEmptyThrough_follows {DEPTH depth pathDepth : Nat}
    {changes : List (Change × Element)} (truthful : Truthful merge hash cache) :
    Follows merge hash (hashWithEmptyThrough merge hash DEPTH depth changes pathDepth cache)
      (hashWithEmpty merge DEPTH depth changes pathDepth) := by
  induction depth generalizing changes pathDepth cache with
  | zero => exact .inl ⟨_, rfl, rfl⟩
  | succ depth ih =>
      cases depth with
      | zero => exact .of_plain truthful _
      | succ depth =>
          rw [hashWithEmptyThrough, hashWithEmpty]
          split_ifs
          · exact .inr ⟨_, cache, rfl, rfl, truthful⟩
          · exact .merged (ih truthful) fun _ => ih

theorem hashWithInnerThrough_follows {DEPTH pathDepth : Nat} {changes : List (Change × Element)}
    (truthful : Truthful merge hash cache) (node : Node) :
    Follows merge hash (node.hashWithInnerThrough merge hash DEPTH changes pathDepth cache)
      (node.hashWithInner merge DEPTH changes pathDepth) := by
  induction node generalizing changes pathDepth cache with
  | leaf element => exact .of_plain truthful _
  | empty depth => exact hashWithEmptyThrough_follows truthful
  | parent left right _ _ leftIH rightIH => exact .merged (leftIH truthful) fun _ => rightIH

theorem hashWithThrough_follows (DEPTH : Nat) (insertElements removeElements : List Element)
    (truthful : Truthful merge hash cache) (node : Node) :
    Follows merge hash (node.hashWithThrough merge hash DEPTH insertElements removeElements cache)
      (node.hashWith merge DEPTH insertElements removeElements) :=
  hashWithInnerThrough_follows truthful node

end

end Node

/-! ## Trees in use -/

namespace CachedTree

variable {DEPTH : Nat} {V C : Type}

section

variable (merge : Element → Element → Element) (hash : CacheHash C) (tempNoir : Bool)

/-- `root_hash_with`: the predicted root, and the tree with what its cache has learned. -/
def rootHashWith (cached : CachedTree DEPTH V C) (insertElements removeElements : List Element) :
    Except String (Element × CachedTree DEPTH V C) := do
  let (result, cache) ←
    cached.tree.tree.hashWithThrough merge hash DEPTH insertElements removeElements cached.cache
  pure (result, { cached with cache })

/-- The calls to a tree that use its cache. -/
inductive Use (DEPTH : Nat) (V : Type)
  | change (call : Call DEPTH V)
  | predict (insertElements removeElements : List Element)

/-- A change of the tree, or a prediction that changes only its cache. -/
inductive UseStep (cached : CachedTree DEPTH V C) : Use DEPTH V → CachedTree DEPTH V C → Prop
  | change {call : Call DEPTH V} {next : CachedTree DEPTH V C} :
      Step merge hash tempNoir cached call next → UseStep cached (.change call) next
  | predict {insertElements removeElements : List Element} {result : Element}
      {next : CachedTree DEPTH V C} :
      cached.rootHashWith merge hash insertElements removeElements = .ok (result, next) →
      UseStep cached (.predict insertElements removeElements) next

end

variable {merge : Element → Element → Element} {hash : CacheHash C} {tempNoir : Bool}
  {cached next : CachedTree DEPTH V C}

/-- Through a truthful cache, the root is predicted that the tree predicts without one. -/
theorem rootHashWith_eq_ok_iff (truthful : Truthful merge hash cached.cache)
    {insertElements removeElements : List Element} {result : Element} :
    (∃ after, cached.rootHashWith merge hash insertElements removeElements = .ok (result, after)) ↔
      cached.tree.rootHashWith merge insertElements removeElements = .ok result := by
  rw [rootHashWith, Tree.rootHashWith]
  rcases Node.hashWithThrough_follows DEPTH insertElements removeElements truthful
    cached.tree.tree with
    ⟨message, throughEq, plainEq⟩ | ⟨found, cache, throughEq, plainEq, _⟩
  · simp [throughEq, plainEq]
  · simp [throughEq, plainEq]

/-- Predictions leave the tree alone and the cache truthful. -/
theorem Sound.rootHashWith {insertElements removeElements : List Element} {result : Element}
    (sound : cached.Sound merge hash)
    (predicted : cached.rootHashWith merge hash insertElements removeElements =
      .ok (result, next)) : next.Sound merge hash := by
  rw [CachedTree.rootHashWith] at predicted
  rcases Node.hashWithThrough_follows DEPTH insertElements removeElements sound.truthful
    cached.tree.tree with ⟨message, throughEq, _⟩ | ⟨found, cache, throughEq, _, truthful⟩
  · rw [throughEq, error_bind] at predicted
    cases predicted
  · rw [throughEq, ok_bind] at predicted
    cases pure_eq_ok_iff.mp predicted
    exact ⟨sound.wellFormed, truthful⟩

theorem sound_of_uses {cache : C} {uses : List (Use DEPTH V)} (positive : 0 < DEPTH)
    (truthful : Truthful merge hash cache)
    (run : Run (UseStep merge hash tempNoir) (newWithCache cache) uses cached) :
    cached.Sound merge hash := by
  induction run with
  | nil => exact ⟨Tree.new_wellFormed positive, truthful⟩
  | snoc _ used ih =>
      cases used with
      | change taken => exact ih.step positive taken
      | predict predicted => exact ih.rootHashWith predicted

/-- Predictions may be left out. -/
theorem uses_of_run {start : CachedTree DEPTH V C} {calls : List (Call DEPTH V)}
    (run : Run (Step merge hash tempNoir) start calls cached) :
    Run (UseStep merge hash tempNoir) start (calls.map .change) cached := by
  induction run with
  | nil => exact .nil
  | snoc _ taken ih =>
      rw [List.map_append]
      exact .snoc ih (.change taken)

/-- The root that is predicted for a batch is the root that the tree has once the batch
is in. -/
theorem rootHashWith_of_insertBatch {cache : C} {uses : List (Use DEPTH V)}
    {batch : Batch DEPTH V} (positive : 0 < DEPTH) (truthful : Truthful merge hash cache)
    (run : Run (UseStep merge hash tempNoir) (newWithCache cache) uses cached)
    (built : batch.Built) (applied : cached.insertBatch merge hash tempNoir batch = .ok next) :
    ∃ after, cached.rootHashWith merge hash batch.insertElements batch.removeEntries =
      .ok (next.tree.rootHash merge, after) := by
  have sound := sound_of_uses positive truthful run
  have wellFormed := sound.wellFormed
  rcases insertBatch_eq_ok sound.truthful applied with ⟨inserted, _⟩
  apply (rootHashWith_eq_ok_iff sound.truthful).mpr
  cases empty : batch.isEmpty with
  | true =>
      have noChange : batch.insertElements = [] ∧ batch.removeEntries = [] := by
        simpa [Batch.isEmpty, Batch.insertElements] using empty
      rw [wellFormed.insertBatch_empty empty inserted, noChange.1, noChange.2]
      exact (wellFormed.rootHashWith_eq_ok_iff positive).mpr
        ⟨List.nodup_nil, wellFormed.rootHash_eq.symm⟩
  | false =>
      have fits := Tree.fits_of_insertBatch empty built.claimed.nodup inserted
      rcases fits.insertBatch_eq_ok tempNoir positive wellFormed empty with
        ⟨after, afterEq, afterWellFormed, entries, _⟩
      cases inserted.symm.trans afterEq
      rw [fits.rootHashWith_eq positive wellFormed, afterWellFormed.rootHash_eq_sparseRoot, entries]

/-- The root of a tree in which one element takes the place of another. -/
theorem replacedElement_predicted :
    ∃ (cached next after : CachedTree 161 Unit Unit) (batch : Batch 161 Unit),
      Run (UseStep (· + ·) (noopHash (· + ·)) false) (newWithCache ()) [.change (.insert 1 ())]
          cached ∧
        batch.insertElements = [2] ∧ batch.removeEntries = [1] ∧
        cached.insertBatch (· + ·) (noopHash (· + ·)) false batch = .ok next ∧
        cached.rootHashWith (· + ·) (noopHash (· + ·)) [2] [1] =
          .ok (next.tree.rootHash (· + ·), after) := by
  have positive : 0 < 161 := by decide
  have one : (1 : Element) ≠ 0 := by decide
  have two : (2 : Element) ≠ 0 := by decide
  have apart : (1 : Element).slot 160 ≠ (2 : Element).slot 160 := by decide
  rcases exists_run_insert () () positive (by decide) noopHash_truthful one with ⟨cached, run, elements⟩
  have uses := uses_of_run run
  have pushed : ({} : Batch 161 Unit).insert ((2, ()) : Element × Unit).1 ((2, ()) : Element × Unit).2 =
      .ok (({} : Batch 161 Unit).push (2, ())) :=
    Batch.insert_eq_ok_iff.mpr ⟨by decide, List.not_mem_nil, rfl⟩
  have removed : (({} : Batch 161 Unit).push (2, ())).remove 1 =
      .ok ((({} : Batch 161 Unit).push (2, ())).pushRemove 1) :=
    Batch.remove_eq_ok_iff.mpr ⟨by decide, by decide, rfl⟩
  have fits : cached.tree.Fits ((({} : Batch 161 Unit).push (2, ())).pushRemove 1) := by
    constructor
    · decide
    · intro element mem
      rcases List.mem_pair.mp mem with rfl | rfl
      · exact two
      · exact one
    · rintro ⟨element, isTwo, other, present, sameSlot⟩
      obtain rfl := List.mem_singleton.mp isTwo
      obtain rfl := (elements other).mp present
      exact apart sameSlot
    · intro element mem
      exact (elements element).mpr (List.mem_singleton.mp mem)
  have built := Batch.Built.remove (.insert .new pushed) removed
  rcases (sound_of_uses positive noopHash_truthful uses).exists_of_fits positive false fits rfl with
    ⟨next, inserted, _⟩
  rcases rootHashWith_of_insertBatch positive noopHash_truthful uses built inserted with
    ⟨after, predicted⟩
  exact ⟨cached, next, after, _, uses, rfl, rfl, inserted, predicted⟩

end CachedTree

end Ciphera.Smirk
