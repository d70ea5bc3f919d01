import Ciphera.Prover.Stock

/-!
# The worker follows the chain

As long as fast snapshots skip empty blocks only, the tree of the worker mirrors the
chain wherever the worker has stopped before.  Once a block with transactions is skipped,
the tree has lost the chain for good.
-/

namespace Ciphera.Prover

open Ciphera.Lib Ciphera.Lib.Merkle Ciphera.Noir Ciphera.Node Ciphera.Smirk Ciphera.Zk

section

variable (poseidon : Poseidon) (keccak : Keccak) (tempNoir : Bool) (config : ProverConfig)
  (commits : List (Block × Nat))

/-- Every rollup starts from the root that the contract has after the last block with
transactions before, and every such block that has been seen and is above the contract
has a rollup, is a bad block, or was left to another prover. -/
structure Covers (contractHeight : Nat) (left : List Nat) (disk : Disk) : Prop where
  rollups : ∀ (height : Nat) (rollup : RollupInput),
    disk.proverStateDb.rollups[height]? = some rollup →
      rollup.oldRoot = settledRoot poseidon (commits.take (height - 1))
  proved : ∀ commit ∈ chainBlocks commits, NonEmpty commit → contractHeight < heightOf commit →
    heightOf commit ≤ (disk.proverStateDb.getLastSeenBlock poseidon).height →
      heightOf commit ∈ disk.proverStateDb.rollups ∨
        heightOf commit ∈ config.badBlocks ∨ heightOf commit ∈ left

/-- The worker is on the track of the chain: when it comes to a block with transactions
then its tree has the root of the chain before the block, and so the rollups that it
stores fit and leave nothing out. -/
structure OnTrack (prover : ProverNode) : Prop where
  tree : ∀ initial fromHeight commit rest,
    prover.worker = .following initial fromHeight (commit :: rest) → NonEmpty commit →
      commit ∈ chainBlocks commits ∧
        prover.disk.notesTree.tree.rootHash (merge poseidon) =
          (Chain.treeAt poseidon keccak tempNoir commits
            (heightOf commit - 1)).tree.rootHash (merge poseidon)
  covers : Covers poseidon config commits prover.contractHeight prover.left prover.disk

/-! ## What the worker has on disk -/

/-- Every stop leaves this behind: the record is one of the chain and the tree mirrors the
chain, though not always at the same height. -/
structure Saved (contractHeight : Nat) (left : List Nat) (disk : Disk) : Prop where
  lastSeen : (disk.proverStateDb.getLastSeenBlock poseidon).rootHash =
    (Chain.treeAt poseidon keccak tempNoir commits
      (disk.proverStateDb.getLastSeenBlock poseidon).height).tree.rootHash (merge poseidon)
  mirrors : ∃ height, Mirrors poseidon keccak tempNoir commits height disk.notesTree
  covers : Covers poseidon config commits contractHeight left disk

/-- The tree of a worker that runs mirrors the chain at the last block that it has seen,
and its stream goes on from there. -/
structure Reads (initial fromHeight contractHeight top : Nat) (disk : Disk)
    (stream : List Block) : Prop where
  initialLe : initial ≤ contractHeight
  mirrors : Mirrors poseidon keccak tempNoir commits
    (disk.proverStateDb.getLastSeenBlock poseidon).height disk.notesTree
  fromLe : fromHeight ≤ (disk.proverStateDb.getLastSeenBlock poseidon).height + 1
  seenLe : (disk.proverStateDb.getLastSeenBlock poseidon).height < fromHeight ∨
    (disk.proverStateDb.getLastSeenBlock poseidon).height ≤ top
  feed : Feed heightOf NonEmpty (chainBlocks commits)
    (disk.proverStateDb.getLastSeenBlock poseidon).height top stream

/-- What holds of the worker, wherever it stands. -/
def Runs (contractHeight top : Nat) (disk : Disk) : Worker → Prop
  | .stopped => True
  | .syncing initial => initial ≤ contractHeight
  | .listening initial fromHeight =>
      initial ≤ contractHeight ∧
        fromHeight = (disk.proverStateDb.getLastSeenBlock poseidon).height + 1 ∧
        Mirrors poseidon keccak tempNoir commits
          (disk.proverStateDb.getLastSeenBlock poseidon).height disk.notesTree
  | .following initial fromHeight stream =>
      Reads poseidon keccak tempNoir commits initial fromHeight contractHeight top disk stream

/-- What holds of the prover at all times. -/
structure Sane (prover : ProverNode) : Prop where
  stocked : Stocked poseidon commits prover.progress
  saved : Saved poseidon keccak tempNoir config commits prover.contractHeight prover.left
    prover.disk
  runs : Runs poseidon keccak tempNoir commits prover.contractHeight prover.progress.height
    prover.disk prover.worker

end

variable {poseidon : Poseidon} {keccak : Keccak} {verify : Verify} {tempNoir : Bool}
  {config : ProverConfig} {commits : List (Block × Nat)}

/-! ## Hearing of a block -/

/-- A worker that hears of the next block goes on to read the chain. -/
theorem runs_hear {progress : Progress} {contractHeight top : Nat} {disk : Disk} {worker : Worker}
    {block : Block} (honest : Honest poseidon keccak verify tempNoir commits)
    (stocked : Stocked poseidon commits progress)
    (runs : Runs poseidon keccak tempNoir commits contractHeight top disk worker)
    (mem : block ∈ chainBlocks commits) (isNext : heightOf block = top + 1)
    (reached : progress.height = heightOf block) :
    Runs poseidon keccak tempNoir commits contractHeight progress.height disk
      (worker.hear progress.chain.store block) := by
  cases worker with
  | stopped => trivial
  | syncing initial => exact runs
  | listening initial fromHeight =>
      rcases runs with ⟨initialLe, rfl, mirrors⟩
      have fetched := stocked.feed_fetchBlocks honest
        (disk.proverStateDb.getLastSeenBlock poseidon).height
        (show top ≤ progress.height by rw [reached, isNext]; exact Nat.le_succ top)
      have feed := feed_hear honest fetched (le_refl _) (.inl (Nat.lt_succ_self _)) mem isNext
      rw [Worker.hear, List.filter_append]
      refine ⟨initialLe, mirrors, le_refl _, .inl (Nat.lt_succ_self _), ?_⟩
      rw [reached, show block.content.header.height = top + 1 from isNext, filter_feed fetched]
      exact feed
  | following initial fromHeight stream =>
      refine ⟨runs.initialLe, runs.mirrors, runs.fromLe, ?_, ?_⟩
      · apply runs.seenLe.imp_right
        intro old
        rw [reached, isNext]
        exact Nat.le_succ_of_le old
      · rw [reached]
        exact feed_hear honest runs.feed runs.fromLe runs.seenLe mem isNext

/-! ## Writes -/

section

variable {contractHeight : Nat} {left : List Nat} {disk : Disk} {commit : Block}

/-- A worker that has never run. -/
theorem saved_start (honest : Honest poseidon keccak verify tempNoir commits) :
    Saved poseidon keccak tempNoir config commits contractHeight left {} where
  lastSeen := rfl
  mirrors := ⟨0, mirrors_emptyTree⟩
  covers :=
    { rollups := by
        intro height rollup found
        simp at found
      proved := by
        intro commit mem _ _ isSeen
        exact absurd isSeen (Nat.not_le_of_gt (honest.height_pos mem)) }

/-- The more the contract has settled and the more is left to others, the less is asked. -/
theorem Saved.mono {higher : Nat} {more : List Nat}
    (saved : Saved poseidon keccak tempNoir config commits contractHeight left disk)
    (raised : contractHeight ≤ higher) (within : left ⊆ more) :
    Saved poseidon keccak tempNoir config commits higher more disk where
  lastSeen := saved.lastSeen
  mirrors := saved.mirrors
  covers :=
    { rollups := saved.covers.rollups
      proved := by
        intro commit mem nonEmpty isAbove isSeen
        have covered := saved.covers.proved commit mem nonEmpty (raised.trans_lt isAbove) isSeen
        exact covered.imp_right (Or.imp_right fun isLeft => within isLeft) }

/-- The tree may be replaced by any other that mirrors the chain. -/
theorem Saved.replaceTree {height : Nat} {notesTree : PersistentMerkleTree}
    (saved : Saved poseidon keccak tempNoir config commits contractHeight left disk)
    (mirrors : Mirrors poseidon keccak tempNoir commits height notesTree) :
    Saved poseidon keccak tempNoir config commits contractHeight left { disk with notesTree } where
  lastSeen := saved.lastSeen
  mirrors := ⟨height, mirrors⟩
  covers := ⟨saved.covers.rollups, saved.covers.proved⟩

/-- The record may be taken back to nothing. -/
theorem Saved.forget (honest : Honest poseidon keccak verify tempNoir commits)
    (saved : Saved poseidon keccak tempNoir config commits contractHeight left disk) :
    Saved poseidon keccak tempNoir config commits contractHeight left
      (disk.write (.setLastSeenBlock (.nothing poseidon))) where
  lastSeen := rfl
  mirrors := saved.mirrors
  covers :=
    { rollups := saved.covers.rollups
      proved := by
        intro commit mem _ _ isSeen
        exact absurd isSeen (Nat.not_le_of_gt (honest.height_pos mem)) }

/-- A rollup may be stored that starts from the right root. -/
theorem Saved.setRollup {height : Nat} {value : RollupInput}
    (saved : Saved poseidon keccak tempNoir config commits contractHeight left disk)
    (fits : value.oldRoot = settledRoot poseidon (commits.take (height - 1))) :
    Saved poseidon keccak tempNoir config commits contractHeight left
      (disk.write (.setRollup height value)) where
  lastSeen := saved.lastSeen
  mirrors := saved.mirrors
  covers :=
    { rollups := by
        intro other rollup found
        dsimp only [Disk.write] at found
        rw [getElem?_insert_eq] at found
        split_ifs at found with same
        · obtain rfl := Option.some.inj found
          rw [← same]
          exact fits
        · exact saved.covers.rollups other rollup found
      proved := by
        intro commit mem nonEmpty isAbove isSeen
        apply (saved.covers.proved commit mem nonEmpty isAbove isSeen).imp_left
        intro stored
        exact Std.TreeMap.mem_insert.mpr (.inr stored) }

/-- The next block may be recorded as seen when it needs no rollup or has one. -/
theorem Saved.seen (honest : Honest poseidon keccak verify tempNoir commits)
    (saved : Saved poseidon keccak tempNoir config commits contractHeight left disk)
    (mem : commit ∈ chainBlocks commits)
    (between : ∀ block ∈ chainBlocks commits,
      (disk.proverStateDb.getLastSeenBlock poseidon).height < heightOf block →
        heightOf block < heightOf commit → ¬NonEmpty block)
    (handled : NonEmpty commit → contractHeight < heightOf commit →
      heightOf commit ∈ disk.proverStateDb.rollups ∨
        heightOf commit ∈ config.badBlocks ∨ heightOf commit ∈ left) :
    Saved poseidon keccak tempNoir config commits contractHeight left
      (disk.write (Prover.seen commit)) where
  lastSeen := (honest.rootHash_at mem).symm
  mirrors := saved.mirrors
  covers :=
    { rollups := saved.covers.rollups
      proved := by
        intro block blockMem nonEmpty isAbove isSeen
        have isSeen : heightOf block ≤ heightOf commit := isSeen
        rcases Nat.eq_or_lt_of_le isSeen with same | lower
        · obtain rfl := honest.eq_of_height_eq mem blockMem same
          exact handled nonEmpty isAbove
        · by_cases old :
              heightOf block ≤ (disk.proverStateDb.getLastSeenBlock poseidon).height
          · exact saved.covers.proved block blockMem nonEmpty isAbove old
          · exact absurd nonEmpty (between block blockMem (Nat.lt_of_not_le old) lower) }

end

/-! ## One block -/

section

variable {initial fromHeight contractHeight top : Nat} {left : List Nat} {disk : Disk}
  {commit : Block} {rest : List Block} {outside : Outside}

/-- The writes may stop anywhere, and after all of them the worker reads on. -/
structure Proceeds (poseidon : Poseidon) (keccak : Keccak) (tempNoir : Bool)
    (config : ProverConfig) (commits : List (Block × Nat))
    (initial fromHeight contractHeight top : Nat) (left : List Nat) (disk : Disk)
    (rest : List Block) (effect : Effect) : Prop where
  survives : Survives Disk.write
    (Saved poseidon keccak tempNoir config commits contractHeight left) disk effect.1
  reads : effect.2 = .ok () → Reads poseidon keccak tempNoir commits initial fromHeight
    contractHeight top (effect.1.foldl Disk.write disk) rest

variable (honest : Honest poseidon keccak verify tempNoir commits)
  (saved : Saved poseidon keccak tempNoir config commits contractHeight left disk)
  (reads : Reads poseidon keccak tempNoir commits initial fromHeight contractHeight top disk
    (commit :: rest))

include honest reads

/-- The tree mirrors the chain just before the first block of the stream. -/
theorem Reads.mirrors_before :
    Mirrors poseidon keccak tempNoir commits (heightOf commit - 1) disk.notesTree := by
  have isAbove := reads.feed.above commit List.mem_cons_self
  apply reads.mirrors.skip honest (Nat.le_pred_of_lt isAbove)
  intro block mem blockAbove blockBelow
  have isPos := honest.height_pos (reads.feed.known commit List.mem_cons_self)
  have isBefore : heightOf block < heightOf commit :=
    blockBelow.trans_lt (Nat.pred_lt isPos.ne')
  exact not_not.mp (reads.feed.not_wanted_before mem blockAbove isBefore)

omit honest in
/-- The worker reads on behind a block that it has seen. -/
theorem Reads.after {next : Disk}
    (seenHeight : (next.proverStateDb.getLastSeenBlock poseidon).height = heightOf commit)
    (mirrors : Mirrors poseidon keccak tempNoir commits (heightOf commit) next.notesTree) :
    Reads poseidon keccak tempNoir commits initial fromHeight contractHeight top next rest := by
  have isAbove := reads.feed.above commit List.mem_cons_self
  refine ⟨reads.initialLe, ?_, ?_, ?_, ?_⟩
  · rw [seenHeight]
    exact mirrors
  · rw [seenHeight]
    exact reads.fromLe.trans (Nat.succ_le_succ isAbove.le)
  · rw [seenHeight]
    exact .inr (reads.feed.below commit List.mem_cons_self)
  · rw [seenHeight]
    exact reads.feed.tail

/-- The tree after the block. -/
theorem Reads.mirrors_apply {changed : PersistentMerkleTree} {currentHeight : Nat}
    (applied : applyBlockToTree poseidon tempNoir disk.notesTree commit.content.state
      currentHeight = .ok changed) :
    Mirrors poseidon keccak tempNoir commits (heightOf commit) changed := by
  have mem := reads.feed.known commit List.mem_cons_self
  have isNext : heightOf commit = heightOf commit - 1 + 1 :=
    (Nat.sub_add_cancel (honest.height_pos mem)).symm
  have mirrors := (reads.mirrors_before honest).apply honest mem isNext applied
  rwa [← isNext] at mirrors

include saved

/-- An empty block is only recorded. -/
theorem proceeds_empty (empty : commit.content.state.txns = []) :
    Proceeds poseidon keccak tempNoir config commits initial fromHeight contractHeight top left
      disk rest ([seen commit], .ok ()) := by
  have mem := reads.feed.known commit List.mem_cons_self
  have recorded := saved.seen honest mem
    (fun block blockMem isAbove isBefore =>
      reads.feed.not_wanted_before blockMem isAbove isBefore)
    (fun nonEmpty _ => absurd empty nonEmpty)
  refine ⟨.write saved (.done recorded), fun _ => reads.after rfl ?_⟩
  apply (reads.mirrors_before honest).skip honest (Nat.sub_le _ _)
  intro block blockMem isAbove isBelow
  have isLast : heightOf block = heightOf commit :=
    Nat.le_antisymm isBelow (Nat.le_of_pred_lt isAbove)
  rw [honest.eq_of_height_eq mem blockMem isLast]
  exact empty

/-- A block that needs no rollup of ours changes the tree. -/
theorem proceeds_passCommit
    (handled : contractHeight < heightOf commit →
      heightOf commit ∈ config.badBlocks ∨ heightOf commit ∈ left) :
    Proceeds poseidon keccak tempNoir config commits initial fromHeight contractHeight top left
      disk rest (passCommit poseidon tempNoir disk commit) := by
  unfold passCommit
  split
  · exact ⟨.done saved, nofun⟩
  · rename_i changed applied
    have mirrors := reads.mirrors_apply honest applied
    have stored := saved.replaceTree mirrors
    have recorded := stored.seen honest (reads.feed.known commit List.mem_cons_self)
      (fun block blockMem isAbove isBefore =>
        reads.feed.not_wanted_before blockMem isAbove isBefore)
      (fun _ isAbove => .inr (handled isAbove))
    exact ⟨.write saved (.write stored (.done recorded)), fun _ => reads.after rfl mirrors⟩

/-- A block that is proved starts from the root of the contract. -/
theorem proceeds_proveCommit (nextCommit : Block) :
    Proceeds poseidon keccak tempNoir config commits initial fromHeight contractHeight top left
      disk rest (proveCommit poseidon keccak tempNoir config outside disk commit nextCommit) := by
  have mem := reads.feed.known commit List.mem_cons_self
  unfold proveCommit
  split
  · exact ⟨.done saved, nofun⟩
  · rename_i roots proved
    split_ifs with mismatch
    · exact ⟨.done saved, nofun⟩
    · have reached : roots.newRoot = commit.content.state.rootHash := not_not.mp mismatch
      have before := reads.mirrors_before honest
      have oldRoot : roots.oldRoot = settledRoot poseidon (commits.take (heightOf commit - 1)) := by
        rw [honest.settledRoot_eq, ← before.rootHash_eq honest]
        apply oldRoot_of_proof before.wellFormed proved
        rw [reached]
        exact honest.nonzero commit mem
      have rolledUp : Saved poseidon keccak tempNoir config commits contractHeight left
          (disk.write (.setRollup (heightOf commit)
            (rollupInput keccak roots.oldRoot commit nextCommit))) := saved.setRollup oldRoot
      dsimp only
      split
      · exact ⟨.write saved (.done rolledUp), nofun⟩
      · rename_i changed applied
        have mirrors := reads.mirrors_apply honest applied
        have stored := rolledUp.replaceTree mirrors
        have recorded := stored.seen honest mem
          (fun block blockMem isAbove isBefore =>
            reads.feed.not_wanted_before blockMem isAbove isBefore)
          (fun _ _ => .inl (Std.TreeMap.mem_insert.mpr (.inl (Nat.compare_eq_eq.mpr rfl))))
        exact ⟨.write saved (.write rolledUp (.write stored (.done recorded))),
          fun _ => reads.after rfl mirrors⟩

end

/-! ## One step of the worker -/

section

variable {contractHeight top : Nat} {left : List Nat} {disk : Disk} {worker : Worker}

/-- A plan that keeps what is on disk, wherever it breaks off, and leads to a worker that
runs. -/
structure Holds (poseidon : Poseidon) (keccak : Keccak) (tempNoir : Bool) (config : ProverConfig)
    (commits : List (Block × Nat)) (contractHeight top : Nat) (left : List Nat) (disk : Disk)
    (plan : Plan) : Prop where
  survives : Survives Disk.write
    (Saved poseidon keccak tempNoir config commits contractHeight (left ++ plan.left)) disk
    plan.writes
  runs : Runs poseidon keccak tempNoir commits contractHeight top
    (plan.writes.foldl Disk.write disk) plan.worker

theorem Proceeds.holds {initial fromHeight : Nat} {rest : List Block} {effect : Effect}
    {more : List Nat}
    (proceeds : Proceeds poseidon keccak tempNoir config commits initial fromHeight contractHeight
      top (left ++ more) disk rest effect) :
    Holds poseidon keccak tempNoir config commits contractHeight top left disk
      (.of effect (.following initial fromHeight rest) more) := by
  refine ⟨proceeds.survives, ?_⟩
  unfold Plan.of
  dsimp only
  split
  · rename_i done finished
    exact proceeds.reads finished
  · trivial

/-- A worker that only waits. -/
theorem holds_idle
    (saved : Saved poseidon keccak tempNoir config commits contractHeight left disk)
    (runs : Runs poseidon keccak tempNoir commits contractHeight top disk worker) :
    Holds poseidon keccak tempNoir config commits contractHeight top left disk
      ⟨[], worker, []⟩ where
  survives := .done (saved.mono (le_refl _) (List.subset_append_left _ _))
  runs := runs

theorem holds_planCommit {initial fromHeight : Nat} {commit : Block} {rest : List Block}
    (outside : Outside) (honest : Honest poseidon keccak verify tempNoir commits)
    (saved : Saved poseidon keccak tempNoir config commits contractHeight left disk)
    (reads : Reads poseidon keccak tempNoir commits initial fromHeight contractHeight top disk
      (commit :: rest)) :
    Holds poseidon keccak tempNoir config commits contractHeight top left disk
      (planCommit poseidon keccak tempNoir config outside disk initial fromHeight commit rest) := by
  have savedMore : ∀ more, Saved poseidon keccak tempNoir config commits contractHeight
      (left ++ more) disk := fun more => saved.mono (le_refl _) (List.subset_append_left _ _)
  unfold planCommit
  dsimp only
  split_ifs with empty passed notOurs
  · exact (proceeds_empty honest (savedMore []) reads (List.isEmpty_iff.mp empty)).holds
  · apply Proceeds.holds
    apply proceeds_passCommit honest (savedMore []) reads
    intro isAbove
    rw [Bool.or_eq_true, decide_eq_true_iff] at passed
    rcases passed with rolledUp | bad
    · exact absurd (rolledUp.trans reads.initialLe) (Nat.not_le_of_gt isAbove)
    · exact .inl (List.contains_iff_mem.mp bad)
  · apply Proceeds.holds
    apply proceeds_passCommit honest (savedMore _) reads
    intro _
    exact .inr (List.mem_append_right _ (List.mem_singleton_self _))
  · cases rest with
    | nil => exact holds_idle saved reads
    | cons nextCommit later =>
        exact (proceeds_proveCommit honest (savedMore []) reads nextCommit).holds

theorem holds_plan (outside : Outside) (honest : Honest poseidon keccak verify tempNoir commits)
    (saved : Saved poseidon keccak tempNoir config commits contractHeight left disk)
    (runs : Runs poseidon keccak tempNoir commits contractHeight top disk worker) :
    Holds poseidon keccak tempNoir config commits contractHeight top left disk
      (plan poseidon keccak tempNoir config outside contractHeight disk worker) := by
  cases worker with
  | stopped =>
      exact holds_idle saved (show contractHeight ≤ contractHeight from le_refl _)
  | syncing initial =>
      unfold plan
      dsimp only
      split_ifs with mismatch
      · have savedMore := saved.mono (le_refl contractHeight) (List.subset_append_left left [])
        have forgotten := savedMore.forget honest
        have deleted := forgotten.replaceTree mirrors_emptyTree
        exact ⟨.write savedMore (.write forgotten (.done deleted)), trivial⟩
      · rcases saved.mirrors with ⟨height, mirrors⟩
        have sameRoot := saved.lastSeen.symm.trans (not_not.mp mismatch)
        exact holds_idle saved ⟨runs, rfl, mirrors.of_rootHash_eq honest sameRoot⟩
  | listening initial fromHeight => exact holds_idle saved runs
  | following initial fromHeight stream =>
      cases stream with
      | nil => exact holds_idle saved runs
      | cons commit rest => exact holds_planCommit outside honest saved runs

end

/-! ## Whole runs -/

theorem sane_start (honest : Honest poseidon keccak verify tempNoir commits) :
    Sane poseidon keccak tempNoir config commits .start where
  stocked := stocked_start honest
  saved := saved_start honest
  runs := trivial

section

variable {contractHeight top higher : Nat} {disk : Disk} {worker : Worker}

/-- A rollup that is settled makes no difference to a worker that runs. -/
theorem Runs.settle (raised : contractHeight ≤ higher)
    (runs : Runs poseidon keccak tempNoir commits contractHeight top disk worker) :
    Runs poseidon keccak tempNoir commits higher top disk worker := by
  cases worker with
  | stopped => trivial
  | syncing initial => exact le_trans runs raised
  | listening initial fromHeight => exact ⟨runs.1.trans raised, runs.2⟩
  | following initial fromHeight stream =>
      exact ⟨runs.initialLe.trans raised, runs.mirrors, runs.fromLe, runs.seenLe, runs.feed⟩

/-- Nor do empty blocks that are skipped. -/
theorem Runs.skip (raised : top ≤ higher)
    (nothing : ∀ commit ∈ chainBlocks commits, top < heightOf commit →
      heightOf commit ≤ higher → ¬NonEmpty commit)
    (runs : Runs poseidon keccak tempNoir commits contractHeight top disk worker) :
    Runs poseidon keccak tempNoir commits contractHeight higher disk worker := by
  cases worker with
  | stopped => trivial
  | syncing initial => exact runs
  | listening initial fromHeight => exact runs
  | following initial fromHeight stream =>
      exact ⟨runs.initialLe, runs.mirrors, runs.fromLe,
        runs.seenLe.imp_right fun old => old.trans raised, runs.feed.raise raised nothing⟩

end

/-- Every step keeps what holds of the prover. -/
theorem Sane.step {prover next : ProverNode} {event : ProverNode.Event}
    (honest : Honest poseidon keccak verify tempNoir commits)
    (sane : Sane poseidon keccak tempNoir config commits prover)
    (step : ProverNode.Step poseidon keccak tempNoir config commits prover event next)
    (gapless : Gapless commits prover event) :
    Sane poseidon keccak tempNoir config commits next := by
  cases step with
  | node onChain taken =>
      have stocked := sane.stocked.step honest onChain gapless taken
      cases taken with
      | commit isNext committed =>
          exact ⟨stocked, sane.saved, runs_hear honest stocked sane.runs onChain isNext rfl⟩
      | snapshot isAbove _ => exact ⟨stocked, sane.saved, sane.runs.skip isAbove gapless⟩
      | restart _ _ _ => exact ⟨stocked, sane.saved, trivial⟩
  | settle raised =>
      exact ⟨sane.stocked, sane.saved.mono raised (List.Subset.refl _), sane.runs.settle raised⟩
  | @advance outside =>
      have holds := holds_plan outside honest sane.saved sane.runs
      exact ⟨sane.stocked, holds.survives.all, holds.runs⟩
  | @stop outside count =>
      have holds := holds_plan outside honest sane.saved sane.runs
      exact ⟨sane.stocked, holds.survives.take count, trivial⟩

/-- What holds at all times keeps the worker on the track. -/
theorem Sane.onTrack {prover : ProverNode} (honest : Honest poseidon keccak verify tempNoir commits)
    (sane : Sane poseidon keccak tempNoir config commits prover) :
    OnTrack poseidon keccak tempNoir config commits prover where
  tree := by
    intro initial fromHeight commit rest stands _
    have reads := sane.runs
    rw [stands] at reads
    exact ⟨reads.feed.known commit List.mem_cons_self,
      (Reads.mirrors_before honest reads).rootHash_eq honest⟩
  covers := sane.saved.covers

/-- In every run in which fast snapshots skip empty blocks only, wherever the worker and
the node stop and start again, the worker stays on the track of the chain. -/
theorem worker_follows_chain {prover : ProverNode} {events : List ProverNode.Event}
    (honest : Honest poseidon keccak verify tempNoir commits)
    (run : Run (fun before event after =>
      ProverNode.Step poseidon keccak tempNoir config commits before event after ∧
        Gapless commits before event) .start events prover) :
    OnTrack poseidon keccak tempNoir config commits prover := by
  have sane : Sane poseidon keccak tempNoir config commits prover := by
    induction run with
    | nil => exact sane_start honest
    | snoc _ taken ih => exact ih.step honest taken.1 taken.2
  exact sane.onTrack honest

/-! ## A node that skips a block -/

/-- The database lets the worker have the block, and no hash is cached. -/
def free : Outside := ⟨true, {}⟩

section

variable {prover : ProverNode}

/-- A step without writes. -/
theorem step_idle {outside : Outside} {worker : Worker}
    (planned : plan poseidon keccak tempNoir config outside prover.contractHeight prover.disk
      prover.worker = ⟨[], worker, []⟩) :
    ProverNode.Step poseidon keccak tempNoir config commits prover (.advance outside)
      { prover with worker } := by
  have step : ProverNode.Step poseidon keccak tempNoir config commits prover (.advance outside) _ :=
    .advance
  rw [planned, ProverNode.carryOut, List.append_nil] at step
  exact step

/-- A worker records an empty block. -/
theorem step_empty (outside : Outside) {initial fromHeight : Nat} {commit : Block}
    (rest : List Block) (stands : prover.worker = .following initial fromHeight (commit :: rest))
    (empty : commit.content.state.txns = []) :
    ProverNode.Step poseidon keccak tempNoir config commits prover (.advance outside)
      { prover with
        disk := prover.disk.write (seen commit)
        worker := .following initial fromHeight rest } := by
  have isEmpty : commit.content.state.txns.isEmpty = true := List.isEmpty_iff.mpr empty
  have planned : plan poseidon keccak tempNoir config outside prover.contractHeight prover.disk
      prover.worker = ⟨[seen commit], .following initial fromHeight rest, []⟩ := by
    rw [stands]
    simp only [plan, planCommit, isEmpty, if_true]
    rfl
  have step : ProverNode.Step poseidon keccak tempNoir config commits prover (.advance outside) _ :=
    .advance
  rw [planned, ProverNode.carryOut, List.append_nil] at step
  exact step

/-- A worker is launched. -/
theorem step_launch (outside : Outside) (stands : prover.worker = .stopped) :
    ProverNode.Step poseidon keccak tempNoir config commits prover (.advance outside)
      { prover with worker := .syncing prover.contractHeight } := by
  apply step_idle
  rw [stands]
  rfl

/-- A worker that has nothing yet asks for all blocks. -/
theorem step_listen {initial : Nat} (outside : Outside) (fresh : prover.disk = {})
    (stands : prover.worker = .syncing initial) :
    ProverNode.Step poseidon keccak tempNoir config commits prover (.advance outside)
      { prover with worker := .listening initial 1 } := by
  apply step_idle
  rw [stands, fresh]
  exact if_neg (not_not.mpr rfl)

end

section

variable {commits : List (Block × Nat)} {second third : Block} {notesTree : PersistentMerkleTree}
  {stored last : Chain}

section

variable (secondHeight : second.content.header.height = 2)

include secondHeight

/-- The node takes a snapshot for the second block. -/
theorem step_skip {elements : List Element}
    (applied : chunkOutcome poseidon tempNoir emptyTree second elements =
      .ok (.applied notesTree)) :
    ProverNode.Step poseidon keccak tempNoir config commits .start
      (.node (.snapshot second elements))
      { ProverNode.start with progress := ⟨⟨{}, notesTree⟩, 1⟩ } := by
  have step : Progress.Step poseidon keccak tempNoir Progress.start
      (.snapshot second elements) _ :=
    .snapshot (Nat.zero_le _) (applyFastSnapshotChunk_of_applied applied)
  have confirmed : prevHeight second.content.header.height = 1 := by
    rw [secondHeight]
    rfl
  rw [confirmed] at step
  exact .node trivial step

variable (onChain : ∃ commit ∈ commits, commit.1 = second)
  (taken : Chain.Step poseidon keccak (fun _ => true) tempNoir ⟨{}, notesTree⟩ (second, 0) stored)

include taken

include onChain in
/-- It goes on with the block of the snapshot, while the worker is not up. -/
theorem step_resume :
    ProverNode.Step poseidon keccak tempNoir config commits
      { ProverNode.start with progress := ⟨⟨{}, notesTree⟩, 1⟩ } (.node (.commit second 0))
      { ProverNode.start with progress := ⟨stored, 2⟩ } := by
  have step : Progress.Step poseidon keccak tempNoir ⟨⟨{}, notesTree⟩, 1⟩ (.commit second 0) _ :=
    .commit secondHeight taken.2
  rw [secondHeight] at step
  exact .node onChain step

variable (thirdHeight : third.content.header.height = 3)

include thirdHeight

/-- It stops before the third block is written, and finds its databases in step. -/
theorem step_restart (reachable : Tree.Reachable (Node.merge poseidon) tempNoir notesTree.tree) :
    ProverNode.Step poseidon keccak tempNoir config commits
      { ProverNode.start with progress := ⟨stored, 2⟩ } (.node (.restart third 0 .beforeStore))
      { ProverNode.start with progress := ⟨stored, 2⟩ } := by
  have maxHeight : stored.store.maxHeight = some 2 := by
    rcases Chain.commitProposal_eq_ok_iff.mp taken.2 with ⟨_, storeEq, _⟩
    rw [storeEq, ← secondHeight]
    rfl
  have found : stored.store.blocks[2]? = some (.v2 second (some 0)) := by
    rw [taken.blocks_eq, secondHeight]
    rfl
  have rooted : stored.notesTree.tree.rootHash (Node.merge poseidon) =
      second.content.state.rootHash := taken.rootHash_eq reachable
  have loads : Loads poseidon tempNoir stored ⟨stored.store, stored.notesTree, second⟩ :=
    .same maxHeight found rooted
  have step : Progress.Step poseidon keccak tempNoir ⟨stored, 2⟩ (.restart third 0 .beforeStore) _ :=
    .restart thirdHeight .beforeStore (loadDbAndSmirk_eq_ok_iff.mpr loads)
  rw [secondHeight] at step
  exact .node (.inl rfl) step

variable (next : Chain.Step poseidon keccak (fun _ => true) tempNoir stored (third, 0) last)

include next

/-- The store of that node has the second block alone below the third. -/
theorem fetchBlocks_skipped : fetchBlocks last.store 1 3 = [second] := by
  have blocks : last.store.blocks = (({} : Store).blocks.insert 2
      (.v2 second (some 0))).insert 3 (.v2 third (some 0)) := by
    rw [next.blocks_eq, taken.blocks_eq, secondHeight, thirdHeight]
  rw [fetchBlocks, blocks]
  rfl

/-- The worker hears of the third block. -/
theorem step_third (onChain : ∃ commit ∈ commits, commit.1 = third) :
    ProverNode.Step poseidon keccak tempNoir config commits
      { ProverNode.start with progress := ⟨stored, 2⟩, worker := .listening 0 1 }
      (.node (.commit third 0))
      { ProverNode.start with
        progress := ⟨last, 3⟩
        worker := .following 0 1 [second, third] } := by
  have heard : Worker.hear last.store third (.listening 0 1) =
      .following 0 1 [second, third] := by
    rw [Worker.hear, thirdHeight, fetchBlocks_skipped secondHeight taken thirdHeight next]
    simp [secondHeight, thirdHeight]
  have step : Progress.Step poseidon keccak tempNoir ⟨stored, 2⟩ (.commit third 0) _ :=
    .commit thirdHeight next.2
  rw [thirdHeight] at step
  have listens : ProverNode.Step poseidon keccak tempNoir config commits
      { ProverNode.start with progress := ⟨stored, 2⟩, worker := .listening 0 1 }
      (.node (.commit third 0)) _ := .node onChain step
  dsimp only [ProverNode.afterNode] at listens
  rw [heard] at listens
  exact listens

end

end

/-! ## A skipped empty block -/

/-- A block that creates a commitment above two empty ones. -/
def createdAt (rootHash : Element) : Block := ⟨outputBlock 3 rootHash slotOfZero, ⟨0, 0, 0⟩⟩

/-- Two blocks that do nothing, and one that creates an element. -/
def idleChain (rootHash : Element) : List (Block × Nat) :=
  [(emptyBlock 1, 0), (emptyBlock 2, 0), (createdAt rootHash, 0)]

/-- The chain block by block. -/
structure IdleChain (rootHash : Element) (first second chain : Chain) : Prop where
  firstTaken : Chain.Step levelHash (fun _ => 0) (fun _ => true) false Chain.genesis
    (emptyBlock 1, 0) first
  secondTaken : Chain.Step levelHash (fun _ => 0) (fun _ => true) false first
    (emptyBlock 2, 0) second
  created : Chain.Step levelHash (fun _ => 0) (fun _ => true) false second
    (createdAt rootHash, 0) chain
  firstTree : first.notesTree = emptyTree
  secondTree : second.notesTree = emptyTree

/-- The chain is valid, and so is its end for a node without the first block. -/
theorem exists_idleChain :
    ∃ rootHash first second chain stored last,
      IdleChain rootHash first second chain ∧
        Chain.Step levelHash (fun _ => 0) (fun _ => true) false ⟨{}, emptyTree⟩
          (emptyBlock 2, 0) stored ∧
        Chain.Step levelHash (fun _ => 0) (fun _ => true) false stored
          (createdAt rootHash, 0) last := by
  have nonzero : slotOfZero ≠ Element.ZERO := by decide
  have wellFormed : emptyTree.tree.WellFormed (Node.merge levelHash) := emptyTree_wellFormed
  rcases Chain.exists_step_empty levelHash (fun _ => 0) (fun _ => true) false Chain.genesis
    (emptyBlock 1) 0 rfl rfl with ⟨first, firstTaken, firstTree⟩
  rcases Chain.exists_step_empty levelHash (fun _ => 0) (fun _ => true) false first (emptyBlock 2)
    0 rfl (by rw [firstTree]; rfl) with ⟨second, secondTaken, secondTree⟩
  rcases Chain.exists_step_empty levelHash (fun _ => 0) (fun _ => true) false Chain.genesis
    (emptyBlock 2) 0 rfl rfl with ⟨stored, storedTaken, storedTree⟩
  rw [firstTree] at secondTree
  -- neither of the stores knows the commitment
  have unrecorded : ¬second.store.Recorded slotOfZero ∧ ¬stored.store.Recorded slotOfZero := by
    have unknown : ¬Chain.genesis.store.Recorded slotOfZero :=
      BlockStore.not_recorded_empty slotOfZero
    rw [secondTaken.recorded_iff, firstTaken.recorded_iff, storedTaken.recorded_iff]
    simp [emptyBlock, BlockState.insertLeaves, unknown]
  have valid : TxnValid (fun _ => true) second.store second.notesTree (outputTxn slotOfZero) := by
    rw [secondTree]
    exact outputTxn_valid rfl (by decide) (not_mem_emptyTree slotOfZero) unrecorded.1
  have secondWellFormed : second.notesTree.tree.WellFormed (Node.merge levelHash) := by
    rw [secondTree]
    exact wellFormed
  have storedWellFormed : stored.notesTree.tree.WellFormed (Node.merge levelHash) := by
    rw [storedTree]
    exact wellFormed
  rcases exists_outputBlock_validate 3 secondWellFormed valid nonzero with ⟨rootHash, accepted⟩
  have transferred : BlockValid levelHash (fun _ => true) stored.store stored.notesTree
      (outputBlock 3 rootHash slotOfZero) := by
    apply (validate_eq_ok_iff.mp accepted).transfer secondWellFormed storedWellFormed
    · intro element
      rw [secondTree, storedTree]
    · rw [insertLeaves_outputBlock nonzero]
      intro leaf mem
      rw [List.mem_singleton.mp mem]
      exact unrecorded.2
    · intro mintHash mem
      rw [BlockContent.mintHashes, outputBlock] at mem
      simp [mintHash_outputTxn] at mem
  have free : ∀ notesTree : PersistentMerkleTree, notesTree = emptyTree →
      ¬notesTree.tree.Collides (outputBlock 3 rootHash slotOfZero).state.insertLeaves := by
    rintro notesTree rfl
    exact not_collides_emptyTree _
  rcases Chain.exists_step_output (fun _ => 0) false ⟨0, 0, 0⟩ 0 secondWellFormed accepted
    (free _ secondTree) with ⟨chain, created⟩
  rcases Chain.exists_step_output (fun _ => 0) false ⟨0, 0, 0⟩ 0 storedWellFormed
    (validate_eq_ok_iff.mpr transferred) (free _ storedTree) with ⟨last, createdToo⟩
  exact ⟨rootHash, first, second, chain, stored, last,
    ⟨firstTaken, secondTaken, created, firstTree, secondTree⟩, storedTaken, createdToo⟩

namespace IdleChain

variable {rootHash : Element} {first second chain : Chain}
  (idle : IdleChain rootHash first second chain)

include idle

theorem reachable : Tree.Reachable (Node.merge levelHash) false second.notesTree.tree := by
  rw [idle.secondTree]
  exact Chain.reachable_genesis

/-- The commitment is the only leaf of the last tree. -/
theorem leaves : chain.notesTree.tree.leaves = onSlotZero := by
  have nonzero : slotOfZero ≠ Element.ZERO := by decide
  have wellFormed := (idle.created.reachable idle.reachable).wellFormed MERKLE_TREE_DEPTH_pos
  have holds : ∀ element, element ∈ chain.notesTree.tree.entries ↔ element = slotOfZero := by
    intro element
    rw [idle.created.mem_iff, idle.secondTree, createdAt, insertLeaves_outputBlock nonzero,
      removeLeaves_outputBlock]
    simp [not_mem_emptyTree]
  funext slot
  by_cases isZero : slot = 0
  · subst isZero
    exact Tree.leaves_of_mem wellFormed.distinct ((holds slotOfZero).mpr rfl)
  · rw [onSlotZero, Function.update_of_ne isZero]
    apply Tree.leaves_of_vacant
    intro element mem sameSlot
    obtain rfl := (holds element).mp mem
    exact isZero sameSlot.symm

theorem run : Run (Chain.Step levelHash (fun _ => 0) (fun _ => true) false) Chain.genesis
    (idleChain rootHash) chain :=
  .snoc (.snoc (.snoc .nil idle.firstTaken) idle.secondTaken) idle.created

/-- The trees of the chain are empty, or hold the commitment. -/
theorem trees (height : Nat) :
    (Chain.treeAt levelHash (fun _ => 0) false (idleChain rootHash) height).tree.leaves =
        (fun _ => Element.ZERO) ∨
      (Chain.treeAt levelHash (fun _ => 0) false (idleChain rootHash) height).tree.leaves =
        onSlotZero := by
  have one := Run.snoc .nil idle.firstTaken
  match height with
  | 0 => exact .inl leaves_emptyTree
  | 1 =>
      left
      have taken : (idleChain rootHash).take 1 = [] ++ [(emptyBlock 1, 0)] := rfl
      rw [Chain.treeAt, taken, ← Chain.eq_after_of_run one, idle.firstTree, leaves_emptyTree]
  | 2 =>
      left
      have taken : (idleChain rootHash).take 2 =
          [] ++ [(emptyBlock 1, 0)] ++ [(emptyBlock 2, 0)] := rfl
      rw [Chain.treeAt, taken, ← Chain.eq_after_of_run (one.snoc idle.secondTaken),
        idle.secondTree, leaves_emptyTree]
  | height + 3 =>
      right
      have taken : (idleChain rootHash).take (height + 3) = idleChain rootHash :=
        List.take_of_length_le (Nat.le_add_left 3 height)
      rw [Chain.treeAt, taken, ← Chain.eq_after_of_run idle.run, idle.leaves]

theorem honest : Honest levelHash (fun _ => 0) (fun _ => true) false (idleChain rootHash) where
  run := ⟨chain, idle.run⟩
  numbered := by
    intro index commit found
    match index, found with
    | 0, found | 1, found | 2, found =>
        cases found
        rfl
  collisionFree := by
    apply injOn_nodes_onSlotZero.mono
    apply Set.iUnion_subset
    intro height
    rcases idle.trees height with vacant | onZero
    · rw [vacant]
      exact Set.subset_union_left
    · rw [onZero]
      exact Set.subset_union_right
  nonzero := by
    have vacant : emptyTree.tree.rootHash (Node.merge levelHash) ≠ Element.ZERO := by
      rw [emptyTree_wellFormed.rootHash_eq, leaves_emptyTree]
      exact root_vacant_ne_zero
    have filled : rootHash ≠ Element.ZERO := by
      have reachable := idle.created.reachable idle.reachable
      have rooted : chain.notesTree.tree.rootHash (Node.merge levelHash) = rootHash :=
        idle.created.rootHash_eq idle.reachable
      rw [← rooted, (reachable.wellFormed MERKLE_TREE_DEPTH_pos).rootHash_eq, idle.leaves]
      exact root_onSlotZero_ne_zero
    rintro block ⟨commit, mem, rfl⟩
    simp only [idleChain, List.mem_cons, List.not_mem_nil, or_false] at mem
    rcases mem with rfl | rfl | rfl
    · exact vacant
    · exact vacant
    · exact filled

end IdleChain

/-- A node takes a snapshot that skips an empty block, stops and starts again; its worker
has the root of the chain before the block with the commitment. -/
theorem skippedEmpty_followed :
    ∃ rootHash prover,
      Run (fun before event after =>
          ProverNode.Step levelHash (fun _ => 0) false ⟨.prover, []⟩ (idleChain rootHash) before
              event after ∧
            Gapless (idleChain rootHash) before event) .start
          [.node (.snapshot (emptyBlock 2) []), .node (.commit (emptyBlock 2) 0),
            .node (.restart (createdAt rootHash) 0 .beforeStore), .advance free, .advance free,
            .node (.commit (createdAt rootHash) 0), .advance free] prover ∧
        prover.worker = .following 0 1 [createdAt rootHash] ∧
        OnTrack levelHash (fun _ => 0) false ⟨.prover, []⟩ (idleChain rootHash) prover := by
  rcases exists_idleChain with ⟨rootHash, first, second, chain, stored, last, idle, taken, next⟩
  have onChain : ∃ commit ∈ idleChain rootHash, commit.1 = emptyBlock 2 :=
    ⟨_, List.mem_cons_of_mem _ List.mem_cons_self, rfl⟩
  have createdOn : ∃ commit ∈ idleChain rootHash, commit.1 = createdAt rootHash :=
    ⟨_, List.mem_cons_of_mem _ (List.mem_cons_of_mem _ List.mem_cons_self), rfl⟩
  have gapless : Gapless (idleChain rootHash) .start (.node (.snapshot (emptyBlock 2) [])) := by
    rintro commit ⟨listed, mem, rfl⟩ _ below nonEmpty
    simp only [idleChain, List.mem_cons, List.not_mem_nil, or_false] at mem
    rcases mem with rfl | rfl | rfl
    · exact nonEmpty rfl
    · exact nonEmpty rfl
    · have above : ¬3 ≤ prevHeight 2 := by decide
      exact above below
  have run : Run (fun before event after =>
      ProverNode.Step levelHash (fun _ => 0) false ⟨.prover, []⟩ (idleChain rootHash) before
          event after ∧
        Gapless (idleChain rootHash) before event) .start
      [.node (.snapshot (emptyBlock 2) []), .node (.commit (emptyBlock 2) 0),
        .node (.restart (createdAt rootHash) 0 .beforeStore), .advance free, .advance free,
        .node (.commit (createdAt rootHash) 0), .advance free] _ :=
    .snoc (.snoc (.snoc (.snoc (.snoc (.snoc (.snoc .nil
      ⟨step_skip rfl (chunkOutcome_emptyBlock 2), gapless⟩)
      ⟨step_resume rfl onChain taken, trivial⟩)
      ⟨step_restart rfl taken rfl .new, trivial⟩)
      ⟨step_launch free rfl, trivial⟩)
      ⟨step_listen free rfl rfl, trivial⟩)
      ⟨step_third rfl taken rfl next createdOn, trivial⟩)
      ⟨step_empty free [createdAt rootHash] rfl rfl, trivial⟩
  exact ⟨rootHash, _, run, rfl, worker_follows_chain idle.honest run⟩

/-! ## A skipped block -/

/-- A block that creates a commitment, an empty one, and one that burns nothing. -/
def outputAt (rootHash : Element) : Block := ⟨outputBlock 1 rootHash 1, ⟨0, 0, 0⟩⟩

/-- A block that does nothing to a tree with the given root. -/
def emptyAt (rootHash : Element) : Block := ⟨⟨⟨2, 0, 0, 0, []⟩, ⟨rootHash, []⟩⟩, ⟨0, 0, 0⟩⟩

/-- A block that only burns. -/
def burnAt (rootHash : Element) : Block := leaflessBlock 3 rootHash (emptyBurn [] 0)

/-- One block of each sort. -/
def restingChain (rootHash : Element) : List (Block × Nat) :=
  [(outputAt rootHash, 0), (emptyAt rootHash, 0), (burnAt rootHash, 0)]

/-- A burn of nothing extends every chain. -/
theorem exists_step_burn (poseidon : Poseidon) (chain : Chain) :
    ∃ next, Chain.Step poseidon (fun _ => 0) (fun _ => true) false chain
      (burnAt (chain.notesTree.tree.rootHash (merge poseidon)), 0) next := by
  have isBurn : (leaflessTxn [] 3 0 0).mintHash = none := by decide
  have valid : BlockValid poseidon (fun _ => true) chain.store chain.notesTree
      (burnAt (chain.notesTree.tree.rootHash (merge poseidon))).content := by
    apply leaflessBlock_valid 3 rfl
    intro mintHash minted
    rw [isBurn] at minted
    cases minted
  rcases Chain.exists_step_leafless (fun _ => 0) false 0 valid (leaves_leaflessBlock 3 _ [] 3 0 0)
    with ⟨next, step, _⟩
  exact ⟨next, step⟩

/-- A node that takes a snapshot of the chain at the empty block goes on with that block. -/
theorem exists_skipping_node (poseidon : Poseidon) :
    ∃ rootHash reached chain elements notesTree stored last,
      Run (Chain.Step poseidon (fun _ => 0) (fun _ => true) false) Chain.genesis
          [(outputAt rootHash, 0), (emptyAt rootHash, 0)] reached ∧
        Chain.Step poseidon (fun _ => 0) (fun _ => true) false reached (burnAt rootHash, 0) chain ∧
        chunkOutcome poseidon false emptyTree (emptyAt rootHash) elements =
          .ok (.applied notesTree) ∧
        Chain.Step poseidon (fun _ => 0) (fun _ => true) false ⟨{}, notesTree⟩
          (emptyAt rootHash, 0) stored ∧
        Chain.Step poseidon (fun _ => 0) (fun _ => true) false stored (burnAt rootHash, 0) last := by
  rcases exists_synced_empty poseidon with ⟨rootHash, middle, reached, synced, completable⟩
  rcases synced.completes_of_completable completable with ⟨block, notesTree, sent, applied, same⟩
  obtain rfl := Option.some.inj (synced.chunk_block.symm.trans sent)
  have reachedRoot : reached.notesTree.tree.rootHash (merge poseidon) = rootHash :=
    synced.announced.rootHash_eq
      (Chain.reachable_of_run Chain.reachable_genesis synced.runMiddle)
  have wellFormed : notesTree.tree.WellFormed (merge poseidon) :=
    wellFormed_of_applyFastSnapshotChunk emptyTree_wellFormed
      (applyFastSnapshotChunk_of_applied applied)
  -- the empty block leaves the elements as they are
  have sameReached : ∀ element, element ∈ notesTree.tree.entries ↔
      element ∈ reached.notesTree.tree.entries := by
    intro element
    rw [same, synced.announced.mem_iff]
    simp [BlockState.insertLeaves, BlockState.removeLeaves]
  have nodeRoot : notesTree.tree.rootHash (merge poseidon) = rootHash := by
    rw [← reachedRoot, wellFormed.rootHash_eq, synced.wellFormed_reached.rootHash_eq,
      leaves_eq_of_same wellFormed.distinct synced.wellFormed_reached.distinct sameReached]
  rcases Chain.exists_step_empty poseidon (fun _ => 0) (fun _ => true) false ⟨{}, notesTree⟩
    (emptyAt rootHash) 0 rfl nodeRoot.symm with ⟨stored, taken, storedTree⟩
  rcases exists_step_burn poseidon reached with ⟨chain, burnt⟩
  rcases exists_step_burn poseidon stored with ⟨last, nodeBurnt⟩
  rw [reachedRoot] at burnt
  rw [storedTree, nodeRoot] at nodeBurnt
  exact ⟨rootHash, reached, chain, _, notesTree, stored, last, synced.runReached, burnt, applied,
    taken, nodeBurnt⟩

section

variable {rootHash : Element} {notesTree : PersistentMerkleTree} {stored last : Chain}

theorem mem_restingChain {block : Block}
    (listed : block = emptyAt rootHash ∨ block = burnAt rootHash) :
    ∃ commit ∈ restingChain rootHash, commit.1 = block := by
  rcases listed with rfl | rfl
  · exact ⟨_, List.mem_cons_of_mem _ List.mem_cons_self, rfl⟩
  · exact ⟨_, List.mem_cons_of_mem _ (List.mem_cons_of_mem _ List.mem_cons_self), rfl⟩

theorem numbered_restingChain : Chain.Numbered 1 (restingChain rootHash) := by
  intro index commit found
  match index, found with
  | 0, found | 1, found | 2, found =>
      cases found
      rfl

/-- The commitment of the first block is there before the burn. -/
theorem mem_one_restingChain {reached : Chain}
    (run : Run (Chain.Step poseidon keccak (fun _ => true) tempNoir) Chain.genesis
      [(outputAt rootHash, 0), (emptyAt rootHash, 0)] reached) :
    (1 : Element) ∈ reached.notesTree.tree.entries := by
  have nonzero : (1 : Element) ≠ Element.ZERO := by decide
  rcases Run.of_snoc (show Run _ _ ([(outputAt rootHash, 0)] ++ [(emptyAt rootHash, 0)]) _ from run)
    with ⟨middle, first, second⟩
  rcases Run.of_snoc (show Run _ _ ([] ++ [(outputAt rootHash, 0)]) _ from first)
    with ⟨_, _, created⟩
  have live : (1 : Element) ∈ middle.notesTree.tree.entries := by
    rw [created.mem_iff]
    change _ ∉ (outputBlock 1 rootHash 1).state.removeLeaves ∧
      (_ ∈ (outputBlock 1 rootHash 1).state.insertLeaves ∨ _)
    rw [removeLeaves_outputBlock, insertLeaves_outputBlock nonzero]
    exact ⟨List.not_mem_nil, .inl List.mem_cons_self⟩
  rw [second.mem_iff]
  exact ⟨List.not_mem_nil, .inr live⟩

end

/-- The worker of that node starts on the burn with an empty tree, while the chain has a
commitment by then. -/
theorem skipped_block_loses_chain :
    ∃ rootHash events prover,
      (∃ chain, Run (Chain.Step anyInput (fun _ => 0) (fun _ => true) false) Chain.genesis
          (restingChain rootHash) chain) ∧
        Chain.Numbered 1 (restingChain rootHash) ∧
        Run (ProverNode.Step anyInput (fun _ => 0) false ⟨.mockProver, []⟩ (restingChain rootHash))
          .start events prover ∧
        prover.worker = .following 0 1 [burnAt rootHash] ∧
        ¬OnTrack anyInput (fun _ => 0) false ⟨.mockProver, []⟩ (restingChain rootHash) prover := by
  rcases exists_skipping_node anyInput with
    ⟨rootHash, reached, chain, elements, notesTree, stored, last, run, burnt, applied, taken,
      nodeBurnt⟩
  have toListening : Run (ProverNode.Step anyInput (fun _ => 0) false ⟨.mockProver, []⟩
      (restingChain rootHash)) .start _
      { ProverNode.start with progress := ⟨stored, 2⟩, worker := .listening 0 1 } :=
    .snoc (.snoc (.snoc (.snoc .nil (step_skip rfl applied))
      (step_resume rfl (mem_restingChain (.inl rfl)) taken))
      (step_launch free rfl)) (step_listen free rfl rfl)
  have toBurn := Run.snoc (Run.snoc toListening
    (step_third rfl taken rfl nodeBurnt (mem_restingChain (.inr rfl))))
    (step_empty free [burnAt rootHash] rfl rfl)
  have reachable := Chain.reachable_of_run Chain.reachable_genesis run
  refine ⟨rootHash, _, _, ⟨chain, .snoc run burnt⟩, numbered_restingChain,
    toBurn, rfl, ?_⟩
  intro onTrack
  have sameRoot := (onTrack.tree 0 1 (burnAt rootHash) [] rfl (List.cons_ne_nil _ _)).2
  have before : Chain.treeAt anyInput (fun _ => 0) false (restingChain rootHash)
      (heightOf (burnAt rootHash) - 1) = reached.notesTree := by
    rw [Chain.treeAt, show heightOf (burnAt rootHash) = 3 from rfl, restingChain,
      Chain.eq_after_of_run run]
    rfl
  rw [before] at sameRoot
  exact rootHash_ne_of_mem_one (reachable.wellFormed MERKLE_TREE_DEPTH_pos) (mem_one_restingChain run) sameRoot

end Ciphera.Prover
