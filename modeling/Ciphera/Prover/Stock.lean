import Ciphera.Lib.Follower
import Ciphera.Node.Mirror
import Ciphera.Prover.Worker

/-!
# What the worker can read

The worker reads its blocks from the store of its node and from the commits that it
hears of.  A fast snapshot leaves blocks out of both.  As long as these are empty, the
store has every block with transactions up to the height of the node, whatever happens
to the node, and the stream of the worker goes on from the last block that it has seen.
-/

namespace Ciphera.Prover

open Ciphera.Lib Ciphera.Lib.Merkle Ciphera.Noir Ciphera.Node Ciphera.Smirk Ciphera.Zk

/-- The height of a block. -/
abbrev heightOf (block : Block) : Nat := block.content.header.height

/-- The block has transactions. -/
def NonEmpty (block : Block) : Prop := block.content.state.txns ≠ []

section

variable (poseidon : Poseidon) (commits : List (Block × Nat))

/-- A fast snapshot skips empty blocks only. -/
def Gapless (prover : ProverNode) : ProverNode.Event → Prop
  | .node (.snapshot block _) => ∀ commit ∈ chainBlocks commits,
      prover.progress.height < heightOf commit →
      heightOf commit ≤ prevHeight block.content.header.height → ¬NonEmpty commit
  | _ => True

/-- The store has every block with transactions up to a height. -/
def HasUpTo (store : Store) (top : Nat) : Prop :=
  ∀ commit ∈ chainBlocks commits, NonEmpty commit → heightOf commit ≤ top →
    heightOf commit ∈ store.blocks

/-- The store has blocks of the chain only. -/
def HasOnly (store : Store) : Prop :=
  ∀ (height : Nat) (format : BlockFormat), store.blocks[height]? = some format →
    format.intoBlock ∈ chainBlocks commits

/-- The store has the blocks of the chain up to the height of the node, except perhaps
empty ones. -/
structure Stocked (progress : Progress) : Prop where
  sound : progress.Sound poseidon
  known : HasOnly commits progress.chain.store
  complete : HasUpTo commits progress.chain.store progress.height

end

variable {poseidon : Poseidon} {keccak : Keccak} {verify : Verify} {tempNoir : Bool}
  {commits : List (Block × Nat)}

/-! ## The stream -/

theorem mem_fetchBlocks_iff {store : Store} {fromHeight maxExclusive : Nat} {block : Block} :
    block ∈ fetchBlocks store fromHeight maxExclusive ↔
      ∃ height format, store.blocks[height]? = some format ∧
        (fromHeight ≤ height ∧ height < maxExclusive) ∧ format.intoBlock = block := by
  simp only [fetchBlocks, List.mem_map, List.mem_filter, Prod.exists, Bool.and_eq_true,
    decide_eq_true_eq, Std.TreeMap.mem_toList_iff_getElem?_eq_some, and_assoc]

/-- The stored blocks come in the order of their heights. -/
theorem sorted_fetchBlocks {store : Store} (filed : Filed store) (fromHeight maxExclusive : Nat) :
    (fetchBlocks store fromHeight maxExclusive).Pairwise (heightOf · < heightOf ·) := by
  rw [fetchBlocks, List.pairwise_map]
  apply List.Pairwise.filter
  apply store.blocks.ordered_keys_toList.imp_of_mem
  rintro ⟨first, firstFormat⟩ ⟨second, secondFormat⟩ firstMem secondMem before
  rw [Std.TreeMap.mem_toList_iff_getElem?_eq_some] at firstMem secondMem
  rw [heightOf, heightOf, filed.height_eq _ _ firstMem, filed.height_eq _ _ secondMem]
  exact Nat.compare_eq_lt.mp before

/-- The stored blocks up to a height feed a worker that has seen the ones below. -/
theorem Stocked.feed_fetchBlocks {progress : Progress}
    (honest : Honest poseidon keccak verify tempNoir commits)
    (stocked : Stocked poseidon commits progress) (low : Nat) {top : Nat}
    (reached : top ≤ progress.height) :
    Feed heightOf NonEmpty (chainBlocks commits) low top
      (fetchBlocks progress.chain.store (low + 1) (top + 1)) := by
  have filed := stocked.sound.filed
  constructor
  · exact sorted_fetchBlocks filed _ _
  · intro block mem
    rcases mem_fetchBlocks_iff.mp mem with ⟨height, format, found, ⟨isAbove, _⟩, rfl⟩
    rw [heightOf, filed.height_eq _ _ found]
    exact isAbove
  · intro block mem
    rcases mem_fetchBlocks_iff.mp mem with ⟨height, format, found, ⟨_, isBelow⟩, rfl⟩
    rw [heightOf, filed.height_eq _ _ found]
    exact Nat.le_of_lt_succ isBelow
  · intro block mem
    rcases mem_fetchBlocks_iff.mp mem with ⟨height, format, found, _, rfl⟩
    exact stocked.known _ _ found
  · intro block mem nonEmpty isAbove isBelow
    have stored := stocked.complete block mem nonEmpty (isBelow.trans reached)
    have found := Std.TreeMap.getElem?_eq_some_getElem stored
    refine mem_fetchBlocks_iff.mpr ⟨_, _, found, ⟨isAbove, Nat.lt_succ_of_le isBelow⟩, ?_⟩
    exact honest.eq_of_height_eq mem (stocked.known _ _ found) (filed.height_eq _ _ found)

/-- A commit that is heard goes to the end of the stream, unless it has been seen. -/
theorem feed_hear {low top fromHeight : Nat} {stream : List Block} {block : Block}
    (honest : Honest poseidon keccak verify tempNoir commits)
    (feed : Feed heightOf NonEmpty (chainBlocks commits) low top stream)
    (fromLe : fromHeight ≤ low + 1) (seenLe : low < fromHeight ∨ low ≤ top)
    (mem : block ∈ chainBlocks commits) (isNext : heightOf block = top + 1) :
    Feed heightOf NonEmpty (chainBlocks commits) low (heightOf block)
      (stream ++ [block].filter fun block => fromHeight ≤ block.content.header.height) := by
  by_cases wanted : fromHeight ≤ heightOf block
  · rw [List.filter_cons_of_pos (by simpa using wanted)]
    apply feed.snoc mem isNext
    · rcases seenLe with isNew | old
      · exact isNew.trans_le wanted
      · rw [isNext]
        exact Nat.lt_succ_of_le old
    · intro other otherMem sameHeight
      exact honest.eq_of_height_eq mem otherMem sameHeight
  · rw [List.filter_cons_of_neg (by simpa using wanted), List.filter_nil, List.append_nil]
    apply feed.skip
    · rw [isNext]
      exact Nat.le_succ top
    · exact Nat.le_of_lt_succ ((Nat.lt_of_not_le wanted).trans_le fromLe)

/-- Nothing of the stored blocks is left out of the stream. -/
theorem filter_feed {low top : Nat} {stream : List Block}
    (feed : Feed heightOf NonEmpty (chainBlocks commits) low top stream) :
    stream.filter (fun block => low + 1 ≤ block.content.header.height) = stream := by
  rw [List.filter_eq_self]
  intro block mem
  exact decide_eq_true (feed.above block mem)

/-! ## The store of the node -/

/-- There is no block at height zero. -/
theorem hasUpTo_zero (honest : Honest poseidon keccak verify tempNoir commits) (store : Store) :
    HasUpTo commits store 0 := by
  intro commit mem _ isBelow
  exact absurd isBelow (Nat.not_le_of_gt (honest.height_pos mem))

theorem hasOnly_empty : HasOnly commits {} := by
  intro height format found
  simp at found

theorem HasOnly.set {store : Store} {block : Block} (hasOnly : HasOnly commits store)
    (mem : block ∈ chainBlocks commits) (commitTime : Nat) :
    HasOnly commits (store.set (BlockFormat.indexing poseidon keccak)
      (.v2 block (some commitTime))) := by
  intro height format found
  rw [blocks_set] at found
  split_ifs at found
  · obtain rfl := Option.some.inj found
    exact mem
  · exact hasOnly height format found

theorem HasUpTo.set {store : Store} {block : Block} {top : Nat}
    (hasUpTo : HasUpTo commits store top) (isNext : heightOf block = top + 1) (commitTime : Nat) :
    HasUpTo commits (store.set (BlockFormat.indexing poseidon keccak)
      (.v2 block (some commitTime))) (heightOf block) := by
  intro commit mem nonEmpty isBelow
  rw [mem_blocks_set]
  rcases Nat.eq_or_lt_of_le isBelow with same | lower
  · exact .inl same.symm
  · apply Or.inr
    apply hasUpTo commit mem nonEmpty
    rw [isNext] at lower
    exact Nat.le_of_lt_succ lower

theorem stocked_start (honest : Honest poseidon keccak verify tempNoir commits) :
    Stocked poseidon commits .start where
  sound := by
    have run : Run (Progress.Step poseidon keccak tempNoir) .start [] .start := .nil
    exact Progress.sound_of_run run
  known := hasOnly_empty
  complete := hasUpTo_zero honest _

/-- Wherever a commit stops, the store has the chain up to the highest block in it. -/
theorem Stocked.stopped {progress : Progress} {block : Block} {commitTime : Nat}
    {point : CrashPoint} {saved : Chain} (stocked : Stocked poseidon commits progress)
    (onChain : point = .beforeStore ∨ block ∈ chainBlocks commits)
    (isNext : heightOf block = progress.height + 1)
    (stopped : Stopped poseidon keccak tempNoir progress.chain block commitTime point saved) :
    HasOnly commits saved.store ∧ ∃ top, HasUpTo commits saved.store top ∧
      ∀ height ∈ saved.store.blocks, height ≤ top := by
  have written : block ∈ chainBlocks commits →
      HasOnly commits (progress.chain.store.set (BlockFormat.indexing poseidon keccak)
          (.v2 block (some commitTime))) ∧
        ∃ top, HasUpTo commits (progress.chain.store.set (BlockFormat.indexing poseidon keccak)
            (.v2 block (some commitTime))) top ∧
          ∀ height ∈ (progress.chain.store.set (BlockFormat.indexing poseidon keccak)
            (.v2 block (some commitTime))).blocks, height ≤ top := by
    intro mem
    refine ⟨stocked.known.set mem commitTime, _, stocked.complete.set isNext commitTime, ?_⟩
    intro height stored
    rcases (mem_blocks_set poseidon keccak _).mp stored with rfl | old
    · exact le_refl _
    · rw [isNext]
      exact Nat.le_succ_of_le (stocked.sound.confirmed height old)
  cases stopped with
  | beforeStore => exact ⟨stocked.known, _, stocked.complete, stocked.sound.confirmed⟩
  | betweenWrites => exact written (onChain.resolve_left nofun)
  | afterBoth committed =>
      rcases Chain.commitProposal_eq_ok_iff.mp committed with ⟨_, storeEq, _⟩
      rw [storeEq]
      exact written (onChain.resolve_left nofun)

/-- A node that has just started has the chain up to its height. -/
theorem stocked_of_loads {saved : Chain} {loaded : LoadedData} {top : Nat}
    (honest : Honest poseidon keccak verify tempNoir commits) (filed : Filed saved.store)
    (hasOnly : HasOnly commits saved.store) (hasUpTo : HasUpTo commits saved.store top)
    (within : ∀ height ∈ saved.store.blocks, height ≤ top)
    (loads : Loads poseidon tempNoir saved loaded) :
    HasOnly commits loaded.blockStore ∧
      HasUpTo commits loaded.blockStore loaded.block.content.header.height := by
  have highest : ∀ (maxHeight : Nat) (format : BlockFormat),
      saved.store.blocks[maxHeight]? = some format →
        HasUpTo commits saved.store format.intoBlock.content.header.height := by
    intro maxHeight format found commit mem nonEmpty isBelow
    apply hasUpTo commit mem nonEmpty (isBelow.trans _)
    rw [filed.height_eq _ _ found]
    exact within maxHeight (Std.TreeMap.getElem?_eq_some_iff.mp found).fst
  cases loads with
  | nothing _ => exact ⟨hasOnly, hasUpTo_zero honest _⟩
  | same _ found _ => exact ⟨hasOnly, highest _ _ found⟩
  | repaired _ found _ _ _ _ _ => exact ⟨hasOnly, highest _ _ found⟩
  | reset _ _ _ _ _ => exact ⟨hasOnly_empty, hasUpTo_zero honest _⟩

theorem Stocked.step {next : Progress} {event : Progress.Event} {prover : ProverNode}
    (honest : Honest poseidon keccak verify tempNoir commits)
    (stocked : Stocked poseidon commits prover.progress)
    (onChain : ProverNode.OnChain commits event)
    (gapless : Gapless commits prover (.node event))
    (step : Progress.Step poseidon keccak tempNoir prover.progress event next) :
    Stocked poseidon commits next := by
  have sound := stocked.sound.step step
  cases step with
  | commit isNext committed =>
      rcases Chain.commitProposal_eq_ok_iff.mp committed with ⟨_, storeEq, _⟩
      refine ⟨sound, ?_, ?_⟩
      · dsimp only
        rw [storeEq]
        exact stocked.known.set onChain _
      · dsimp only
        rw [storeEq]
        exact stocked.complete.set isNext _
  | snapshot isAbove _ =>
      refine ⟨sound, stocked.known, ?_⟩
      intro commit mem nonEmpty isBelow
      by_cases old : heightOf commit ≤ prover.progress.height
      · exact stocked.complete commit mem nonEmpty old
      · exact absurd nonEmpty (gapless commit mem (Nat.lt_of_not_le old) isBelow)
  | restart isNext stopped loaded =>
      rcases stocked.stopped onChain isNext stopped with ⟨hasOnly, top, hasUpTo, within⟩
      have filed := (stocked.sound.stopped stopped).2
      rcases stocked_of_loads honest filed hasOnly hasUpTo within
        (loadDbAndSmirk_eq_ok_iff.mp loaded) with ⟨known, complete⟩
      exact ⟨sound, known, complete⟩

end Ciphera.Prover
