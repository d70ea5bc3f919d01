import Ciphera.Node.SyncPaths
import Mathlib.Data.Set.Lattice

/-!
# A second tree

A tree beside the node mirrors the chain at a height when it has the elements of the
chain after the blocks up to there.  It comes to the next height by the block of that
height, and past empty blocks by itself.  Without collisions its root tells the height,
up to empty blocks.
-/

namespace Ciphera.Node

open Ciphera.Lib Ciphera.Lib.Merkle Ciphera.Noir Ciphera.Smirk Ciphera.Zk

variable (poseidon : Poseidon) (keccak : Keccak) (verify : Verify) (tempNoir : Bool)

/-- The chain after some commits. -/
def Chain.after (commits : List (Block × Nat)) : Chain :=
  commits.foldl (fun chain commit =>
    (chain.commitProposal poseidon keccak tempNoir commit.1 commit.2).1) genesis

/-- The tree of the chain after the blocks up to a height. -/
def Chain.treeAt (commits : List (Block × Nat)) (height : Nat) : PersistentMerkleTree :=
  (after poseidon keccak tempNoir (commits.take height)).notesTree

/-- The root that the contract has once those of some blocks that are not empty have been
settled. -/
def settledRoot (commits : List (Block × Nat)) : Element :=
  commits.foldl (fun root commit =>
    if commit.1.content.state.txns.isEmpty then root else commit.1.content.state.rootHash)
    (emptyTree.tree.rootHash (merge poseidon))

/-- The blocks of a chain. -/
def chainBlocks (commits : List (Block × Nat)) : Set Block :=
  {block | ∃ commit ∈ commits, commit.1 = block}

/-- A chain of valid blocks.  No two pairs of nodes of its trees collide, and the roots
that it announces are not zero, which stands for padding. -/
structure Honest (commits : List (Block × Nat)) : Prop where
  run : ∃ chain, Run (Chain.Step poseidon keccak verify tempNoir) Chain.genesis commits chain
  numbered : Chain.Numbered 1 commits
  collisionFree : Set.InjOn (Function.uncurry (merge poseidon))
    (⋃ height, nodes (merge poseidon) (MERKLE_TREE_DEPTH - 1)
      (Chain.treeAt poseidon keccak tempNoir commits height).tree.leaves)
  nonzero : ∀ block ∈ chainBlocks commits, block.content.state.rootHash ≠ Element.ZERO

/-- The tree has the elements of the chain at a height. -/
structure Mirrors (commits : List (Block × Nat)) (height : Nat)
    (notesTree : PersistentMerkleTree) : Prop where
  wellFormed : notesTree.tree.WellFormed (merge poseidon)
  same : ∀ element, element ∈ notesTree.tree.entries ↔
    element ∈ (Chain.treeAt poseidon keccak tempNoir commits height).tree.entries

variable {poseidon keccak verify tempNoir} {commits : List (Block × Nat)} {block : Block}
  {height : Nat} {notesTree changed : PersistentMerkleTree}

theorem Chain.eq_after_of_run {chain : Chain}
    (run : Run (Chain.Step poseidon keccak verify tempNoir) Chain.genesis commits chain) :
    chain = Chain.after poseidon keccak tempNoir commits := by
  induction run with
  | nil => rfl
  | snoc _ taken ih =>
      rw [Chain.after, List.foldl_concat, ← Chain.after, ← ih, taken.2]

/-! ## The blocks of an honest chain -/

namespace Honest

variable (honest : Honest poseidon keccak verify tempNoir commits)

include honest

/-- The chain at every height. -/
theorem run_take (height : Nat) :
    Run (Chain.Step poseidon keccak verify tempNoir) Chain.genesis (commits.take height)
      (Chain.after poseidon keccak tempNoir (commits.take height)) := by
  rcases honest.run with ⟨chain, run⟩
  rw [← List.take_append_drop height commits] at run
  rcases Run.of_append run with ⟨middle, before⟩
  rwa [← Chain.eq_after_of_run before]

theorem wellFormed (height : Nat) :
    (Chain.treeAt poseidon keccak tempNoir commits height).tree.WellFormed (merge poseidon) :=
  (Follows.of_run (honest.run_take height)).wellFormed

/-- A block of the chain has its place. -/
theorem exists_commit (mem : block ∈ chainBlocks commits) :
    ∃ index commitTime, block.content.header.height = index + 1 ∧
      commits[index]? = some (block, commitTime) := by
  rcases mem with ⟨⟨block, commitTime⟩, mem, rfl⟩
  rcases List.getElem?_of_mem mem with ⟨index, found⟩
  have numbered := honest.numbered index _ found
  exact ⟨index, commitTime, numbered.trans (Nat.add_comm 1 index), found⟩

theorem height_pos (mem : block ∈ chainBlocks commits) : 0 < block.content.header.height := by
  rcases honest.exists_commit mem with ⟨index, _, height, _⟩
  rw [height]
  exact Nat.succ_pos index

theorem block_at {index commitTime : Nat} (found : commits[index]? = some (block, commitTime)) :
    block ∈ chainBlocks commits ∧ block.content.header.height = index + 1 :=
  ⟨⟨_, List.mem_of_getElem? found, rfl⟩,
    (honest.numbered index _ found).trans (Nat.add_comm 1 index)⟩

/-- There is one block of each height. -/
theorem eq_of_height_eq {other : Block} (mem : block ∈ chainBlocks commits)
    (otherMem : other ∈ chainBlocks commits)
    (sameHeight : other.content.header.height = block.content.header.height) : other = block := by
  rcases honest.exists_commit mem with ⟨index, commitTime, height, found⟩
  rcases honest.exists_commit otherMem with ⟨otherIndex, otherTime, otherHeight, otherFound⟩
  have sameIndex : otherIndex = index := by
    rw [height, otherHeight] at sameHeight
    exact Nat.succ_injective sameHeight
  rw [sameIndex, found] at otherFound
  exact (congrArg Prod.fst (Option.some.inj otherFound)).symm

/-- A block leads from one height to the next. -/
theorem step_at {index commitTime : Nat} (found : commits[index]? = some (block, commitTime)) :
    Chain.Step poseidon keccak verify tempNoir
      (Chain.after poseidon keccak tempNoir (commits.take index)) (block, commitTime)
      (Chain.after poseidon keccak tempNoir (commits.take (index + 1))) := by
  have run := honest.run_take (index + 1)
  rw [List.take_add_one, found] at run ⊢
  rcases Run.of_snoc run with ⟨middle, before, taken⟩
  rwa [Chain.eq_after_of_run before] at taken

/-- The root after a block is the one that it announces. -/
theorem rootHash_at (mem : block ∈ chainBlocks commits) :
    (Chain.treeAt poseidon keccak tempNoir commits block.content.header.height).tree.rootHash
      (merge poseidon) = block.content.state.rootHash := by
  rcases honest.exists_commit mem with ⟨index, commitTime, height, found⟩
  rw [height]
  exact (honest.step_at found).rootHash_eq
    (Chain.reachable_of_run Chain.reachable_genesis (honest.run_take index))

end Honest

/-! ## Trees that mirror the chain -/

theorem take_succ_of_none (nothing : commits[height]? = none) :
    commits.take (height + 1) = commits.take height := by
  rw [List.take_add_one, nothing]
  exact List.append_nil _

theorem mirrors_emptyTree : Mirrors poseidon keccak tempNoir commits 0 emptyTree where
  wellFormed := emptyTree_wellFormed
  same _ := Iff.rfl

namespace Mirrors

theorem leaves_eq (honest : Honest poseidon keccak verify tempNoir commits)
    (mirrors : Mirrors poseidon keccak tempNoir commits height notesTree) :
    notesTree.tree.leaves =
      (Chain.treeAt poseidon keccak tempNoir commits height).tree.leaves :=
  leaves_eq_of_same mirrors.wellFormed.distinct (honest.wellFormed height).distinct mirrors.same

/-- It has the root of the chain. -/
theorem rootHash_eq (honest : Honest poseidon keccak verify tempNoir commits)
    (mirrors : Mirrors poseidon keccak tempNoir commits height notesTree) :
    notesTree.tree.rootHash (merge poseidon) =
      (Chain.treeAt poseidon keccak tempNoir commits height).tree.rootHash (merge poseidon) := by
  rw [mirrors.wellFormed.rootHash_eq, (honest.wellFormed height).rootHash_eq,
    mirrors.leaves_eq honest]

/-- It mirrors the chain wherever it has the root. -/
theorem of_rootHash_eq (honest : Honest poseidon keccak verify tempNoir commits) {other : Nat}
    (mirrors : Mirrors poseidon keccak tempNoir commits height notesTree)
    (sameRoot : (Chain.treeAt poseidon keccak tempNoir commits other).tree.rootHash
      (merge poseidon) = notesTree.tree.rootHash (merge poseidon)) :
    Mirrors poseidon keccak tempNoir commits other notesTree := by
  refine ⟨mirrors.wellFormed, ?_⟩
  intro element
  apply same_of_rootHash_eq mirrors.wellFormed (honest.wellFormed other) _ sameRoot.symm
  apply honest.collisionFree.mono
  rw [mirrors.leaves_eq honest]
  have within : ∀ height, nodes (merge poseidon) (MERKLE_TREE_DEPTH - 1)
      (Chain.treeAt poseidon keccak tempNoir commits height).tree.leaves ⊆
        ⋃ height, nodes (merge poseidon) (MERKLE_TREE_DEPTH - 1)
          (Chain.treeAt poseidon keccak tempNoir commits height).tree.leaves :=
    Set.subset_iUnion fun height => nodes (merge poseidon) (MERKLE_TREE_DEPTH - 1)
      (Chain.treeAt poseidon keccak tempNoir commits height).tree.leaves
  exact Set.union_subset (within height) (within other)

/-- A block takes it to the next height. -/
theorem apply (honest : Honest poseidon keccak verify tempNoir commits)
    {index currentHeight : Nat}
    (mirrors : Mirrors poseidon keccak tempNoir commits index notesTree)
    (mem : block ∈ chainBlocks commits) (isNext : block.content.header.height = index + 1)
    (applied : applyBlockToTree poseidon tempNoir notesTree block.content.state currentHeight =
      .ok changed) :
    Mirrors poseidon keccak tempNoir commits (index + 1) changed := by
  rcases honest.exists_commit mem with ⟨place, commitTime, height, found⟩
  obtain rfl : place = index := Nat.succ_injective (height.symm.trans isNext)
  refine ⟨wellFormed_of_applyBlockToTree mirrors.wellFormed applied, ?_⟩
  intro element
  rw [mem_of_applyBlockToTree applied, mirrors.same]
  exact ((honest.step_at found).mem_iff element).symm

/-- Empty blocks leave it as it is. -/
theorem skip (honest : Honest poseidon keccak verify tempNoir commits) {higher : Nat}
    (mirrors : Mirrors poseidon keccak tempNoir commits height notesTree)
    (raised : height ≤ higher)
    (empty : ∀ block ∈ chainBlocks commits, height < block.content.header.height →
      block.content.header.height ≤ higher → block.content.state.txns = []) :
    Mirrors poseidon keccak tempNoir commits higher notesTree := by
  induction higher, raised using Nat.le_induction with
  | base => exact mirrors
  | succ higher raised ih =>
      have before := ih fun block mem isAbove isBelow =>
        empty block mem isAbove (Nat.le_succ_of_le isBelow)
      cases found : commits[higher]? with
      | none =>
          refine ⟨before.wellFormed, ?_⟩
          rw [Chain.treeAt, take_succ_of_none found]
          exact before.same
      | some commit =>
          rcases commit with ⟨block, commitTime⟩
          rcases honest.block_at found with ⟨mem, isNext⟩
          have noTxns := empty block mem (by omega) isNext.le
          refine ⟨before.wellFormed, ?_⟩
          intro element
          have step := (honest.step_at found).mem_iff element
          rw [before.same]
          refine Iff.trans ?_ step.symm
          simp [BlockState.insertLeaves, BlockState.removeLeaves, noTxns, Chain.treeAt]

end Mirrors

/-- The contract has the root of the chain once everything up to there is settled. -/
theorem Honest.settledRoot_eq (honest : Honest poseidon keccak verify tempNoir commits)
    (height : Nat) :
    settledRoot poseidon (commits.take height) =
      (Chain.treeAt poseidon keccak tempNoir commits height).tree.rootHash (merge poseidon) := by
  induction height with
  | zero => rfl
  | succ height ih =>
      cases found : commits[height]? with
      | none =>
          rw [Chain.treeAt, take_succ_of_none found, ih]
          rfl
      | some commit =>
          rcases commit with ⟨block, commitTime⟩
          rcases honest.block_at found with ⟨mem, isNext⟩
          have announced := honest.rootHash_at mem
          rw [isNext] at announced
          rw [settledRoot, List.take_add_one, found]
          simp only [Option.toList_some, List.foldl_concat]
          rw [← settledRoot, ih, announced]
          split_ifs with empty
          · have own : Mirrors poseidon keccak tempNoir commits height
                (Chain.treeAt poseidon keccak tempNoir commits height) :=
              ⟨honest.wellFormed height, fun _ => Iff.rfl⟩
            rw [← announced]
            apply (own.skip honest (Nat.le_succ height) _).rootHash_eq honest
            intro other otherMem isAbove isBelow
            have same := honest.eq_of_height_eq mem otherMem (by omega)
            rw [same]
            exact List.isEmpty_iff.mp empty
          · rfl

end Ciphera.Node
