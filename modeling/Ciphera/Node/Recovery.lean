import Ciphera.Node.FastSync

/-!
# Restart after a crash

The block store and the notes tree are two databases, and a commit writes one
after the other.  On restart the root of the tree is compared with the roots of
the two highest stored blocks: a tree that lags one block behind is brought up to
it, and anything else makes the node start from nothing.  The genesis block is
never stored, and a fast snapshot writes the tree alone.
-/

namespace Ciphera.Node

open Ciphera.Lib Ciphera.Noir Ciphera.Smirk Ciphera.Zk

/-- What a node starts from. -/
structure LoadedData where
  blockStore : Store
  persistentTree : PersistentMerkleTree
  block : Block

/-- The block of height zero, which is not stored. -/
def Block.genesis : Block where
  content := ⟨⟨0, 0, 0, 0, []⟩, ⟨Element.ZERO, []⟩⟩
  signature := ⟨0, 0, 0⟩

/-- `load_db_and_smirk`, given what the two databases contain. -/
def loadDbAndSmirk (poseidon : Poseidon) (tempNoir : Bool) (saved : Chain) : Result LoadedData :=
  let root := saved.notesTree.tree.rootHash (merge poseidon)
  match saved.store.maxHeight with
  | none => pure ⟨saved.store, emptyTree, .genesis⟩
  | some maxHeight =>
      match saved.store.blocks[maxHeight]? with
      | none => .error (.panic "called unwrap on a None value")
      | some format =>
          let block := format.intoBlock
          if root = block.content.state.rootHash then
            pure ⟨saved.store, saved.notesTree, block⟩
          else
            match saved.store.blocks[prevHeight maxHeight]? with
            | none => .error (.panic "called unwrap on a None value")
            | some previous =>
                if root = previous.intoBlock.content.state.rootHash then do
                  let notesTree ← applyBlockToTree poseidon tempNoir saved.notesTree
                    block.content.state maxHeight
                  check (notesTree.tree.rootHash (merge poseidon) = block.content.state.rootHash)
                    (.panic "assertion failed")
                  pure ⟨saved.store, notesTree, block⟩
                else pure ⟨{}, emptyTree, .genesis⟩

/-- The ways in which a restart succeeds. -/
inductive Loads (poseidon : Poseidon) (tempNoir : Bool) (saved : Chain) : LoadedData → Prop
  | nothing :
      saved.store.maxHeight = none →
      Loads poseidon tempNoir saved ⟨saved.store, emptyTree, .genesis⟩
  | same {maxHeight : Nat} {format : BlockFormat} :
      saved.store.maxHeight = some maxHeight →
      saved.store.blocks[maxHeight]? = some format →
      saved.notesTree.tree.rootHash (merge poseidon) =
        format.intoBlock.content.state.rootHash →
      Loads poseidon tempNoir saved ⟨saved.store, saved.notesTree, format.intoBlock⟩
  | repaired {maxHeight : Nat} {format previous : BlockFormat} {notesTree : PersistentMerkleTree} :
      saved.store.maxHeight = some maxHeight →
      saved.store.blocks[maxHeight]? = some format →
      saved.notesTree.tree.rootHash (merge poseidon) ≠
        format.intoBlock.content.state.rootHash →
      saved.store.blocks[prevHeight maxHeight]? = some previous →
      saved.notesTree.tree.rootHash (merge poseidon) =
        previous.intoBlock.content.state.rootHash →
      applyBlockToTree poseidon tempNoir saved.notesTree format.intoBlock.content.state
        maxHeight = .ok notesTree →
      notesTree.tree.rootHash (merge poseidon) = format.intoBlock.content.state.rootHash →
      Loads poseidon tempNoir saved ⟨saved.store, notesTree, format.intoBlock⟩
  | reset {maxHeight : Nat} {format previous : BlockFormat} :
      saved.store.maxHeight = some maxHeight →
      saved.store.blocks[maxHeight]? = some format →
      saved.notesTree.tree.rootHash (merge poseidon) ≠
        format.intoBlock.content.state.rootHash →
      saved.store.blocks[prevHeight maxHeight]? = some previous →
      saved.notesTree.tree.rootHash (merge poseidon) ≠
        previous.intoBlock.content.state.rootHash →
      Loads poseidon tempNoir saved ⟨{}, emptyTree, .genesis⟩

/-- Where a process may stop inside `commit_proposal`. -/
inductive CrashPoint
  | beforeStore
  | betweenWrites
  | afterBoth
  deriving DecidableEq, Repr

/-- What the databases contain after a commit has stopped at a point. -/
inductive Stopped (poseidon : Poseidon) (keccak : Keccak) (tempNoir : Bool) (chain : Chain)
    (block : Block) (commitTime : Nat) : CrashPoint → Chain → Prop
  | beforeStore : Stopped poseidon keccak tempNoir chain block commitTime .beforeStore chain
  | betweenWrites :
      Stopped poseidon keccak tempNoir chain block commitTime .betweenWrites
        ⟨chain.store.set (BlockFormat.indexing poseidon keccak) (.v2 block (some commitTime)),
          chain.notesTree⟩
  | afterBoth {next : Chain} :
      chain.commitProposal poseidon keccak tempNoir block commitTime = (next, .ok ()) →
      Stopped poseidon keccak tempNoir chain block commitTime .afterBoth next

/-! ## Histories -/

/-- The databases of a node and the height that it has confirmed. -/
structure Progress where
  chain : Chain
  height : Nat

namespace Progress

/-- What may happen to a node: it commits the next block, it is handed a fast
snapshot, or it stops while it commits a block and starts again. -/
inductive Event
  | commit (block : Block) (commitTime : Nat)
  | snapshot (block : Block) (elements : List Element)
  | restart (block : Block) (commitTime : Nat) (point : CrashPoint)

/-- The effect of an event.  A snapshot is for a block above the confirmed
height, and confirms the height before that block. -/
inductive Step (poseidon : Poseidon) (keccak : Keccak) (tempNoir : Bool) :
    Progress → Event → Progress → Prop
  | commit {progress : Progress} {block : Block} {commitTime : Nat} {next : Chain} :
      block.content.header.height = progress.height + 1 →
      progress.chain.commitProposal poseidon keccak tempNoir block commitTime = (next, .ok ()) →
      Step poseidon keccak tempNoir progress (.commit block commitTime)
        ⟨next, block.content.header.height⟩
  | snapshot {progress : Progress} {block : Block} {elements : List Element}
      {notesTree : PersistentMerkleTree} :
      progress.height ≤ prevHeight block.content.header.height →
      applyFastSnapshotChunk poseidon tempNoir progress.chain.notesTree block elements =
        .ok notesTree →
      Step poseidon keccak tempNoir progress (.snapshot block elements)
        ⟨{ progress.chain with notesTree }, prevHeight block.content.header.height⟩
  | restart {progress : Progress} {block : Block} {commitTime : Nat} {point : CrashPoint}
      {saved : Chain} {loaded : LoadedData} :
      block.content.header.height = progress.height + 1 →
      Stopped poseidon keccak tempNoir progress.chain block commitTime point saved →
      loadDbAndSmirk poseidon tempNoir saved = .ok loaded →
      Step poseidon keccak tempNoir progress (.restart block commitTime point)
        ⟨⟨loaded.blockStore, loaded.persistentTree⟩, loaded.block.content.header.height⟩

end Progress

/-! ## What the store keeps -/

/-- The record of the greatest height is right, and blocks are stored under
their heights. -/
structure Filed (store : Store) : Prop where
  nothing : store.maxHeight = none → ∀ height, height ∉ store.blocks
  greatest : ∀ maxHeight, store.maxHeight = some maxHeight →
    maxHeight ∈ store.blocks ∧ ∀ height ∈ store.blocks, height ≤ maxHeight
  height_eq : ∀ (height : Nat) (format : BlockFormat), store.blocks[height]? = some format →
    format.intoBlock.content.header.height = height

theorem filed_empty : Filed {} where
  nothing _ height := Std.TreeMap.not_mem_emptyc
  greatest maxHeight isGreatest := by cases isGreatest
  height_eq height format found := by simp at found

section

variable (poseidon : Poseidon) (keccak : Keccak) {store : Store} (format : BlockFormat)

@[simp]
theorem blocks_set (store : Store) (height : Nat) :
    (store.set (BlockFormat.indexing poseidon keccak) format).blocks[height]? =
      if format.intoBlock.content.header.height = height then some format
      else store.blocks[height]? :=
  getElem?_insert_eq store.blocks _ height format

@[simp]
theorem mem_blocks_set {height : Nat} :
    height ∈ (store.set (BlockFormat.indexing poseidon keccak) format).blocks ↔
      format.intoBlock.content.header.height = height ∨ height ∈ store.blocks := by
  rw [← Std.TreeMap.isSome_getElem?_iff_mem, ← Std.TreeMap.isSome_getElem?_iff_mem, blocks_set]
  split_ifs with same
  · simp [same]
  · simp [same]

theorem maxHeight_set (filed : Filed store) :
    ∃ maxHeight, (store.set (BlockFormat.indexing poseidon keccak) format).maxHeight =
        some maxHeight ∧
      (maxHeight = format.intoBlock.content.header.height ∨ maxHeight ∈ store.blocks) ∧
      format.intoBlock.content.header.height ≤ maxHeight ∧
      ∀ height ∈ store.blocks, height ≤ maxHeight := by
  unfold BlockStore.set
  dsimp only [BlockFormat.indexing]
  cases recorded : store.maxHeight with
  | none =>
      refine ⟨_, rfl, .inl rfl, le_refl _, ?_⟩
      intro height mem
      exact absurd mem (filed.nothing recorded height)
  | some maxHeight =>
      rcases filed.greatest maxHeight recorded with ⟨present, above⟩
      dsimp only
      split_ifs with lower
      · exact ⟨_, rfl, .inl rfl, le_refl _, fun height mem => (above height mem).trans lower.le⟩
      · exact ⟨_, rfl, .inr present, Nat.le_of_not_lt lower, above⟩

/-- A block above all stored ones becomes the highest. -/
theorem maxHeight_set_above (filed : Filed store)
    (above : ∀ height ∈ store.blocks, height < format.intoBlock.content.header.height) :
    (store.set (BlockFormat.indexing poseidon keccak) format).maxHeight =
      some format.intoBlock.content.header.height := by
  rcases maxHeight_set poseidon keccak format filed with ⟨maxHeight, recorded, source, ownLe, _⟩
  rcases source with rfl | old
  · exact recorded
  · exact absurd (above maxHeight old) (Nat.not_lt.mpr ownLe)

variable {poseidon keccak format} in
theorem Filed.set (filed : Filed store) :
    Filed (store.set (BlockFormat.indexing poseidon keccak) format) := by
  rcases maxHeight_set poseidon keccak format filed with
    ⟨maxHeight, recorded, source, ownLe, othersLe⟩
  constructor
  · intro unrecorded
    rw [recorded] at unrecorded
    cases unrecorded
  · intro other isGreatest
    obtain rfl := Option.some.inj (recorded.symm.trans isGreatest)
    constructor
    · rw [mem_blocks_set]
      exact source.imp_left Eq.symm
    · intro height mem
      rcases (mem_blocks_set poseidon keccak format).mp mem with rfl | old
      · exact ownLe
      · exact othersLe height old
  · intro height stored found
    rw [blocks_set] at found
    split_ifs at found with same
    · obtain rfl := Option.some.inj found
      exact same
    · exact filed.height_eq height stored found

end

/-! ## What a restart needs -/

/-- A block of the height is stored and announces the root. -/
def HasRoot (store : Store) (height : Nat) (root : Element) : Prop :=
  ∃ format, store.blocks[height]? = some format ∧
    format.intoBlock.content.state.rootHash = root

/-- The databases are in step: nothing is stored, or the highest block announces
the root of the tree, or its predecessor does and the highest block leads from
there to the root that it announces. -/
def InStep (poseidon : Poseidon) (tempNoir : Bool) (saved : Chain) : Prop :=
  ∀ (maxHeight : Nat) (format : BlockFormat), saved.store.maxHeight = some maxHeight →
    saved.store.blocks[maxHeight]? = some format →
    format.intoBlock.content.state.rootHash = saved.notesTree.tree.rootHash (merge poseidon) ∨
      HasRoot saved.store (prevHeight maxHeight) (saved.notesTree.tree.rootHash (merge poseidon)) ∧
        Commits poseidon tempNoir saved.notesTree format.intoBlock.content

/-- A restart succeeds, loses no block and ends with the root that the highest
stored block announces. -/
def Recovers (poseidon : Poseidon) (tempNoir : Bool) (saved : Chain) : Prop :=
  ∃ loaded, loadDbAndSmirk poseidon tempNoir saved = .ok loaded ∧
    loaded.blockStore = saved.store ∧
    ∀ (height : Nat) (format : BlockFormat), saved.store.blocks[height]? = some format →
      (∀ other ∈ saved.store.blocks, other ≤ height) →
      loaded.persistentTree.tree.rootHash (merge poseidon) =
        format.intoBlock.content.state.rootHash

section

variable {poseidon : Poseidon} {keccak : Keccak} {tempNoir : Bool} {saved : Chain}

theorem loadDbAndSmirk_eq_ok_iff {loaded : LoadedData} :
    loadDbAndSmirk poseidon tempNoir saved = .ok loaded ↔
      Loads poseidon tempNoir saved loaded := by
  constructor
  · intro done
    unfold loadDbAndSmirk at done
    dsimp only at done
    split at done
    · rename_i unrecorded
      obtain rfl := pure_eq_ok_iff.mp done
      exact .nothing unrecorded
    · rename_i maxHeight recorded
      split at done
      · cases done
      · rename_i format highest
        split_ifs at done with same
        · obtain rfl := pure_eq_ok_iff.mp done
          exact .same recorded highest same
        · split at done
          · cases done
          · rename_i previous before
            split_ifs at done with lags
            · simp only [bind_eq_ok_iff, check_eq_ok_iff, pure_eq_ok_iff] at done
              rcases done with ⟨notesTree, applied, _, reached, rfl⟩
              exact .repaired recorded highest same before lags applied reached
            · obtain rfl := pure_eq_ok_iff.mp done
              exact .reset recorded highest same before lags
  · intro loads
    cases loads with
    | nothing unrecorded => simp [loadDbAndSmirk, unrecorded]
    | same recorded highest same => simp [loadDbAndSmirk, recorded, highest, same]
    | repaired recorded highest differs before lags applied reached =>
        simp [loadDbAndSmirk, recorded, highest, before, ← lags, differs, applied, reached,
          check_of]
    | reset recorded highest differs before farther =>
        simp [loadDbAndSmirk, recorded, highest, before, farther, differs]

/-- A tree that lags behind cannot be repaired without the block before. -/
theorem loadDbAndSmirk_panics {maxHeight : Nat} {format : BlockFormat}
    (recorded : saved.store.maxHeight = some maxHeight)
    (highest : saved.store.blocks[maxHeight]? = some format)
    (differs : saved.notesTree.tree.rootHash (merge poseidon) ≠
      format.intoBlock.content.state.rootHash)
    (missing : saved.store.blocks[prevHeight maxHeight]? = none) :
    loadDbAndSmirk poseidon tempNoir saved =
      .error (.panic "called unwrap on a None value") := by
  simp [loadDbAndSmirk, recorded, highest, differs, missing]

/-- A restart recovers exactly when the databases are in step. -/
theorem recovers_iff_inStep (filed : Filed saved.store) :
    Recovers poseidon tempNoir saved ↔ InStep poseidon tempNoir saved := by
  simp only [Recovers, loadDbAndSmirk_eq_ok_iff]
  constructor
  · rintro ⟨loaded, loads, storeEq, rooted⟩ maxHeight format recorded highest
    have above := (filed.greatest maxHeight recorded).2
    have root := rooted maxHeight format highest above
    cases loads with
    | nothing unrecorded =>
        rw [unrecorded] at recorded
        cases recorded
    | same _ _ _ => exact .inl root.symm
    | repaired recorded' highest' differs before lags applied reached =>
        obtain rfl := Option.some.inj (recorded.symm.trans recorded')
        obtain rfl := Option.some.inj (highest.symm.trans highest')
        refine .inr ⟨⟨_, before, lags.symm⟩, _, ?_, reached⟩
        rwa [filed.height_eq _ _ highest]
    | reset recorded' _ _ _ _ =>
        have lost : saved.store.maxHeight = none := by rw [← storeEq]
        rw [lost] at recorded
        cases recorded
  · intro inStep
    cases recorded : saved.store.maxHeight with
    | none =>
        refine ⟨_, .nothing recorded, rfl, ?_⟩
        intro height format found
        exact absurd (Std.TreeMap.getElem?_eq_some_iff.mp found).1 (filed.nothing recorded height)
    | some maxHeight =>
        rcases filed.greatest maxHeight recorded with ⟨present, above⟩
        rcases Option.isSome_iff_exists.mp (Std.TreeMap.isSome_getElem?_iff_mem.mpr present)
          with ⟨format, highest⟩
        -- only the greatest height has no other above it
        have isHighest : ∀ (height : Nat) (stored : BlockFormat),
            saved.store.blocks[height]? = some stored →
            (∀ other ∈ saved.store.blocks, other ≤ height) → stored = format := by
          intro height stored found noneAbove
          have mem : height ∈ saved.store.blocks := (Std.TreeMap.getElem?_eq_some_iff.mp found).1
          obtain rfl := le_antisymm (above height mem) (noneAbove maxHeight present)
          exact Option.some.inj (found.symm.trans highest)
        by_cases same : saved.notesTree.tree.rootHash (merge poseidon) =
            format.intoBlock.content.state.rootHash
        · refine ⟨_, .same recorded highest same, rfl, ?_⟩
          intro height stored found noneAbove
          rw [isHighest height stored found noneAbove]
          exact same
        · rcases inStep maxHeight format recorded highest with
            equal | ⟨⟨previous, before, lags⟩, notesTree, applied, reached⟩
          · exact absurd equal.symm same
          · rw [filed.height_eq _ _ highest] at applied
            refine ⟨_, .repaired recorded highest same before lags.symm applied reached, rfl, ?_⟩
            intro height stored found noneAbove
            rw [isHighest height stored found noneAbove]
            exact reached

/-! ## Every history -/

/-- A batch on distinct slots keeps a tree well formed. -/
theorem wellFormed_of_persistent_insertBatch {notesTree after : PersistentMerkleTree}
    {batch : Batch MERKLE_TREE_DEPTH SmirkMetadata}
    (wellFormed : notesTree.tree.WellFormed (merge poseidon))
    (slots : (Batch.slots MERKLE_TREE_DEPTH
      (batch.insertElements ++ batch.removeEntries)).Nodup)
    (applied : notesTree.insertBatch (merge poseidon) tempNoir batch = .ok after) :
    after.tree.WellFormed (merge poseidon) := by
  unfold Persistent.insertBatch at applied
  split_ifs at applied with empty
  · obtain rfl := pure_eq_ok_iff.mp applied
    exact wellFormed
  · rcases bind_eq_ok_iff.mp applied with ⟨tree, inserted, done⟩
    obtain rfl := pure_eq_ok_iff.mp done
    exact wellFormed.insertBatch MERKLE_TREE_DEPTH_pos slots inserted

theorem wellFormed_of_applyBlockToTree {notesTree after : PersistentMerkleTree}
    {state : BlockState} {currentHeight : Nat}
    (wellFormed : notesTree.tree.WellFormed (merge poseidon))
    (applied : applyBlockToTree poseidon tempNoir notesTree state currentHeight = .ok after) :
    after.tree.WellFormed (merge poseidon) := by
  rcases applyBlockToTree_eq_ok_iff.mp applied with ⟨slots, inserted⟩
  apply wellFormed_of_persistent_insertBatch wellFormed _ inserted
  rwa [BlockState.insertElements_batch]

theorem wellFormed_of_applyFastSnapshotChunk {notesTree after : PersistentMerkleTree}
    {block : Block} {elements : List Element}
    (wellFormed : notesTree.tree.WellFormed (merge poseidon))
    (applied : applyFastSnapshotChunk poseidon tempNoir notesTree block elements = .ok after) :
    after.tree.WellFormed (merge poseidon) := by
  rcases bind_eq_ok_iff.mp applied with ⟨outcome, outcomeEq, done⟩
  cases outcome with
  | rootHashMismatch =>
      obtain rfl := pure_eq_ok_iff.mp done
      exact wellFormed
  | missingElements left =>
      obtain rfl := pure_eq_ok_iff.mp done
      exact wellFormed
  | applied changed =>
      obtain rfl := pure_eq_ok_iff.mp done
      rcases chunkOutcome_eq_ok_iff.mp outcomeEq with
        ⟨_, _, ⟨_, other⟩ | ⟨_, _, _, collected, ⟨_, other⟩ | ⟨_, _, inserted, same⟩⟩⟩
      · cases other
      · cases other
      · cases same
        rcases collectChanges_eq_ok_iff.mp collected with ⟨slots, rfl, _⟩
        apply wellFormed_of_persistent_insertBatch wellFormed _ inserted
        rwa [insertElements_keptBatch]

/-- What holds of a node at all times. -/
structure Progress.Sound (poseidon : Poseidon) (progress : Progress) : Prop where
  wellFormed : progress.chain.notesTree.tree.WellFormed (merge poseidon)
  filed : Filed progress.chain.store
  confirmed : ∀ height ∈ progress.chain.store.blocks, height ≤ progress.height

/-- The next block is above all stored ones. -/
theorem Progress.Sound.above {progress : Progress} {block : Block}
    (sound : progress.Sound poseidon)
    (height : block.content.header.height = progress.height + 1) :
    ∀ other ∈ progress.chain.store.blocks, other < block.content.header.height := by
  intro other mem
  rw [height]
  exact Nat.lt_succ_of_le (sound.confirmed other mem)

/-- The databases after a stop are as sound as before it. -/
theorem Progress.Sound.stopped {progress : Progress} {block : Block} {commitTime : Nat}
    {point : CrashPoint} (sound : progress.Sound poseidon)
    (stopped : Stopped poseidon keccak tempNoir progress.chain block commitTime point saved) :
    saved.notesTree.tree.WellFormed (merge poseidon) ∧ Filed saved.store := by
  cases stopped with
  | beforeStore => exact ⟨sound.wellFormed, sound.filed⟩
  | betweenWrites => exact ⟨sound.wellFormed, sound.filed.set⟩
  | afterBoth committed =>
      rcases Chain.commitProposal_eq_ok_iff.mp committed with ⟨_, storeEq, applied⟩
      exact ⟨wellFormed_of_applyBlockToTree sound.wellFormed applied, storeEq ▸ sound.filed.set⟩

/-- A node that has just started has confirmed its highest block. -/
theorem Loads.sound {loaded : LoadedData}
    (wellFormed : saved.notesTree.tree.WellFormed (merge poseidon)) (filed : Filed saved.store)
    (loads : Loads poseidon tempNoir saved loaded) :
    Progress.Sound poseidon
      ⟨⟨loaded.blockStore, loaded.persistentTree⟩, loaded.block.content.header.height⟩ := by
  cases loads with
  | nothing unrecorded =>
      refine ⟨emptyTree_wellFormed, filed, ?_⟩
      intro height mem
      exact absurd mem (filed.nothing unrecorded height)
  | same recorded highest _ =>
      refine ⟨wellFormed, filed, ?_⟩
      rw [filed.height_eq _ _ highest]
      exact (filed.greatest _ recorded).2
  | repaired recorded highest _ _ _ applied _ =>
      refine ⟨wellFormed_of_applyBlockToTree wellFormed applied, filed, ?_⟩
      rw [filed.height_eq _ _ highest]
      exact (filed.greatest _ recorded).2
  | reset _ _ _ _ _ =>
      refine ⟨emptyTree_wellFormed, filed_empty, ?_⟩
      intro height mem
      exact absurd mem Std.TreeMap.not_mem_emptyc

theorem Progress.Sound.step {progress next : Progress} {event : Progress.Event}
    (sound : progress.Sound poseidon)
    (step : Progress.Step poseidon keccak tempNoir progress event next) :
    next.Sound poseidon := by
  cases step with
  | commit height committed =>
      rcases Chain.commitProposal_eq_ok_iff.mp committed with ⟨_, storeEq, applied⟩
      constructor
      · exact wellFormed_of_applyBlockToTree sound.wellFormed applied
      · exact storeEq ▸ sound.filed.set
      · intro other mem
        rw [storeEq] at mem
        rcases (mem_blocks_set poseidon keccak _).mp mem with rfl | old
        · exact le_refl _
        · rw [height]
          exact Nat.le_succ_of_le (sound.confirmed other old)
  | snapshot above applied =>
      constructor
      · exact wellFormed_of_applyFastSnapshotChunk sound.wellFormed applied
      · exact sound.filed
      · intro other mem
        exact (sound.confirmed other mem).trans above
  | restart _ stopped loaded =>
      rcases sound.stopped stopped with ⟨wellFormed, filed⟩
      exact (loadDbAndSmirk_eq_ok_iff.mp loaded).sound wellFormed filed

/-- A node that has never run. -/
def Progress.start : Progress := ⟨Chain.genesis, 0⟩

theorem Progress.sound_of_run {progress : Progress} {events : List Progress.Event}
    (run : Run (Progress.Step poseidon keccak tempNoir) Progress.start events progress) :
    progress.Sound poseidon := by
  induction run with
  | nil =>
      refine ⟨emptyTree_wellFormed, filed_empty, ?_⟩
      intro height mem
      exact absurd mem Std.TreeMap.not_mem_emptyc
  | snoc _ taken ih => exact ih.step taken

/-- The condition under which a node that stops while it commits a block will
recover.  Between the two writes the block must leave the root as it is, or its
predecessor must be stored with the root of the tree and no output may fall on
an occupied slot. -/
def Recoverable (poseidon : Poseidon) (tempNoir : Bool) (chain : Chain) (block : Block) :
    CrashPoint → Prop
  | .beforeStore => InStep poseidon tempNoir chain
  | .betweenWrites =>
      block.content.state.rootHash = chain.notesTree.tree.rootHash (merge poseidon) ∨
        HasRoot chain.store (prevHeight block.content.header.height)
            (chain.notesTree.tree.rootHash (merge poseidon)) ∧
          ¬chain.notesTree.tree.Collides block.content.state.insertLeaves
  | .afterBoth => True

theorem prevHeight_ne (height : Nat) : prevHeight height ≠ height := by
  unfold prevHeight
  omega

variable (keccak tempNoir) in
/-- The databases are in step after a new block was stored exactly when the block
has the root of the tree, or its predecessor has and the block can be applied. -/
theorem inStep_set_iff {chain : Chain} {notesTree : PersistentMerkleTree} {block : Block}
    (commitTime : Nat) (filed : Filed chain.store)
    (above : ∀ height ∈ chain.store.blocks, height < block.content.header.height) :
    InStep poseidon tempNoir
        ⟨chain.store.set (BlockFormat.indexing poseidon keccak) (.v2 block (some commitTime)),
          notesTree⟩ ↔
      block.content.state.rootHash = notesTree.tree.rootHash (merge poseidon) ∨
        HasRoot chain.store (prevHeight block.content.header.height)
            (notesTree.tree.rootHash (merge poseidon)) ∧
          Commits poseidon tempNoir notesTree block.content := by
  have recorded := maxHeight_set_above poseidon keccak (.v2 block (some commitTime)) filed above
  have stored := blocks_set poseidon keccak (.v2 block (some commitTime)) chain.store
  have highest := (stored block.content.header.height).trans (if_pos rfl)
  have before := (stored (prevHeight block.content.header.height)).trans
    (if_neg (Ne.symm (prevHeight_ne _)))
  have sameRoots : ∀ root,
      HasRoot (chain.store.set (BlockFormat.indexing poseidon keccak)
          (.v2 block (some commitTime))) (prevHeight block.content.header.height) root ↔
        HasRoot chain.store (prevHeight block.content.header.height) root := by
    intro root
    rw [HasRoot, before]
    rfl
  rw [← sameRoots]
  constructor
  · intro inStep
    exact inStep _ _ recorded highest
  · intro condition maxHeight format recorded' highest'
    obtain rfl := Option.some.inj (recorded.symm.trans recorded')
    obtain rfl := Option.some.inj (highest.symm.trans highest')
    exact condition

/-- A committed block leaves the databases in step. -/
theorem inStep_of_commit {verify : Verify} {progress : Progress} {next : Chain} {block : Block}
    {commitTime : Nat} (sound : progress.Sound poseidon)
    (height : block.content.header.height = progress.height + 1)
    (step : Chain.Step poseidon keccak verify tempNoir progress.chain (block, commitTime) next) :
    InStep poseidon tempNoir next := by
  have above := sound.above height
  rcases Chain.commitProposal_eq_ok_iff.mp step.2 with ⟨_, storeEq, applied⟩
  have rooted := (validate_eq_ok_iff.mp step.1).rootHash_eq sound.wellFormed applied
  have inStep := (inStep_set_iff keccak tempNoir commitTime sound.filed above).mpr
    (.inl rooted.symm)
  rwa [← storeEq] at inStep

/-- After every history and wherever the node stops while it commits a valid
block, it recovers exactly under the condition. -/
theorem recovers_iff_recoverable {verify : Verify} {events : List Progress.Event}
    {progress : Progress} {block : Block} {commitTime : Nat} {point : CrashPoint}
    (run : Run (Progress.Step poseidon keccak tempNoir) Progress.start events progress)
    (height : block.content.header.height = progress.height + 1)
    (validated : block.content.validate poseidon verify progress.chain.store
      progress.chain.notesTree = .ok ())
    (stopped : Stopped poseidon keccak tempNoir progress.chain block commitTime point saved) :
    Recovers poseidon tempNoir saved ↔
      Recoverable poseidon tempNoir progress.chain block point := by
  have sound := Progress.sound_of_run run
  have valid := validate_eq_ok_iff.mp validated
  rw [recovers_iff_inStep (sound.stopped stopped).2]
  cases stopped with
  | beforeStore => exact Iff.rfl
  | betweenWrites =>
      rw [inStep_set_iff keccak tempNoir commitTime sound.filed (sound.above height)]
      apply or_congr_right
      apply and_congr_right
      intro _
      constructor
      · exact fun commits collides => not_commits_of_collides collides commits
      · exact fun free => valid.commits tempNoir sound.wellFormed free
  | afterBoth committed =>
      exact iff_of_true (inStep_of_commit sound height ⟨validated, committed⟩) trivial

/-- A second block with an output, that was stored and not applied, is applied at the
restart: the first block has the root of the tree. -/
theorem secondOutput_recovered :
    ∃ firstRoot secondRoot progress saved,
      Run (Progress.Step levelHash (fun _ => 0) false) Progress.start
          [.commit ⟨outputBlock 1 firstRoot 1, ⟨0, 0, 0⟩⟩ 0] progress ∧
        Stopped levelHash (fun _ => 0) false progress.chain
          ⟨outputBlock 2 secondRoot slotOfZero, ⟨0, 0, 0⟩⟩ 0 .betweenWrites saved ∧
        saved.notesTree.tree.rootHash (merge levelHash) ≠ secondRoot ∧
        Recovers levelHash false saved := by
  rcases Chain.exists_run_firstOutput levelHash (fun _ => 0) (fun _ => ⟨0, 0, 0⟩) with
    ⟨firstRoot, chain, chainRun⟩
  rcases Run.of_snoc (show Run _ Chain.genesis ([] ++ [_]) chain from chainRun) with
    ⟨genesis, nothing, taken⟩
  obtain rfl := Run.eq_of_nil nothing
  have run : Run (Progress.Step levelHash (fun _ => 0) false) Progress.start
      [.commit ⟨outputBlock 1 firstRoot 1, ⟨0, 0, 0⟩⟩ 0] ⟨chain, 1⟩ :=
    .snoc .nil (.commit rfl taken.2)
  have reachable := taken.reachable Chain.reachable_genesis
  have wellFormed := reachable.wellFormed MERKLE_TREE_DEPTH_pos
  have holdsOne : ∀ element, element ∈ chain.notesTree.tree.entries ↔ element = 1 := by
    intro element
    rw [taken.mem_iff, insertLeaves_outputBlock (by decide), removeLeaves_outputBlock]
    simp [Chain.genesis, not_mem_emptyTree]
  have nonzero : slotOfZero ≠ Element.ZERO := by decide
  have unrecorded : ¬chain.store.Recorded slotOfZero := by
    intro known
    rcases (taken.registry_step.known_iff slotOfZero).mp known with created | known
    · rw [Chain.round, insertLeaves_outputBlock (by decide)] at created
      have differ : slotOfZero ∉ [(1 : Element)] := by decide
      exact differ created
    · exact BlockStore.not_recorded_empty slotOfZero known
  have absent : slotOfZero ∉ chain.notesTree.tree.entries := by
    rw [holdsOne]
    decide
  have valid : TxnValid (fun _ => true) chain.store chain.notesTree (outputTxn slotOfZero) :=
    outputTxn_valid rfl (by decide) absent unrecorded
  obtain ⟨secondRoot, validated⟩ := exists_outputBlock_validate 2 wellFormed valid nonzero
  have free : ¬chain.notesTree.tree.Collides
      (outputBlock 2 secondRoot slotOfZero).state.insertLeaves := by
    rw [insertLeaves_outputBlock nonzero]
    rintro ⟨created, createdMem, other, mem, sameSlot⟩
    obtain rfl := List.mem_singleton.mp createdMem
    obtain rfl := (holdsOne other).mp mem
    exact absurd sameSlot (by decide)
  have predecessor : HasRoot chain.store (prevHeight 2)
      (chain.notesTree.tree.rootHash (merge levelHash)) := by
    refine ⟨.v2 ⟨outputBlock 1 firstRoot 1, ⟨0, 0, 0⟩⟩ (some 0), ?_, ?_⟩
    · rw [taken.blocks_eq]
      rfl
    · exact (taken.rootHash_eq Chain.reachable_genesis).symm
  refine ⟨firstRoot, secondRoot, ⟨chain, 1⟩, _, run, .betweenWrites, ?_, ?_⟩
  · -- the new leaf raises the root
    obtain ⟨after, applied, rooted⟩ := (validate_eq_ok_iff.mp validated).commits false wellFormed
      free
    have afterWellFormed :=
      (applyBlockToTree_reachable reachable applied).wellFormed MERKLE_TREE_DEPTH_pos
    have created : slotOfZero ∈ after.tree.entries := by
      rw [mem_of_applyBlockToTree applied, insertLeaves_outputBlock nonzero,
        removeLeaves_outputBlock]
      simp
    have leafAfter : after.tree.leaves 0 = slotOfZero :=
      Tree.leaves_of_mem afterWellFormed.distinct created
    have leafBefore : chain.notesTree.tree.leaves 0 = Element.ZERO := by
      apply Tree.leaves_of_vacant
      intro element mem
      rw [(holdsOne element).mp mem]
      decide
    have before := toBase_rootHash_levelHash wellFormed leafBefore (by decide)
    have raised := toBase_rootHash_levelHash afterWellFormed leafAfter (by decide)
    intro same
    rw [rooted] at raised
    rw [same] at before
    exact absurd (before.symm.trans raised) (by decide)
  · apply (recovers_iff_recoverable run rfl validated .betweenWrites).mpr
    exact .inr ⟨predecessor, free⟩

/-- A first block with an output that was stored and not applied makes every
restart panic, as there is no block at height zero. -/
theorem firstOutput_not_recovered :
    ∃ rootHash saved,
      (outputBlock 1 rootHash 1).validate anyInput (fun _ => true) {} emptyTree = .ok () ∧
        Stopped anyInput (fun _ => 0) false Chain.genesis ⟨outputBlock 1 rootHash 1, ⟨0, 0, 0⟩⟩ 0
          .betweenWrites saved ∧
        loadDbAndSmirk anyInput false saved =
          .error (.panic "called unwrap on a None value") ∧
        ¬Recovers anyInput false saved := by
  rcases Chain.exists_run_firstOutput anyInput (fun _ => 0) (fun _ => ⟨0, 0, 0⟩) with
    ⟨rootHash, chain, run⟩
  rcases Run.of_snoc (show Run _ Chain.genesis ([] ++ [_]) chain from run) with
    ⟨middle, nothing, taken⟩
  obtain rfl := Run.eq_of_nil nothing
  have live : (1 : Element) ∈ chain.notesTree.tree.entries := by
    rw [taken.mem_iff, insertLeaves_outputBlock (by decide), removeLeaves_outputBlock]
    simp
  have differs : emptyTree.tree.rootHash (merge anyInput) ≠ rootHash := by
    have rooted := taken.rootHash_eq Chain.reachable_genesis
    have wellFormed := (taken.reachable Chain.reachable_genesis).wellFormed MERKLE_TREE_DEPTH_pos
    exact fun same => rootHash_ne_of_mem_one wellFormed live (same.trans rooted.symm)
  have stored := blocks_set anyInput (fun _ => 0)
    (.v2 ⟨outputBlock 1 rootHash 1, ⟨0, 0, 0⟩⟩ (some 0)) Chain.genesis.store
  have panics : loadDbAndSmirk anyInput false
      ⟨Chain.genesis.store.set (BlockFormat.indexing anyInput fun _ => 0)
        (.v2 ⟨outputBlock 1 rootHash 1, ⟨0, 0, 0⟩⟩ (some 0)), Chain.genesis.notesTree⟩ =
        .error (.panic "called unwrap on a None value") :=
    loadDbAndSmirk_panics rfl ((stored 1).trans (if_pos rfl)) differs
      ((stored (prevHeight 1)).trans (if_neg (Ne.symm (prevHeight_ne 1))))
  refine ⟨rootHash, _, taken.1, .betweenWrites, panics, ?_⟩
  rintro ⟨loaded, done, _⟩
  rw [panics] at done
  cases done

end

end Ciphera.Node
