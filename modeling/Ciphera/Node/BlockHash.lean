import Ciphera.Node.Recovery

/-!
# What the hash of a block binds

The signed hash covers the root, the height and the header of a block.  Of the
transactions it sees no more than the root does: which commitments they spend and
which they create.  The messages of mints and burns are not covered.
-/

namespace Ciphera.Node

open Ciphera.Lib Ciphera.Lib.Merkle Ciphera.Noir Ciphera.Smirk Ciphera.Zk

/-- The byte string that the block hash is the digest of. -/
def BlockContent.hashInput (keccak : Keccak) (content : BlockContent) : List (BitVec 8) :=
  beBytes 32 content.state.rootHash.toNat ++ beBytes 32 content.header.height ++
    beBytes 32 (content.headerHash keccak).toNat

/-- The leaves that validation predicts for a block. -/
def changedLeaves (notesTree : PersistentMerkleTree) (state : BlockState) : Nat → Element :=
  applyChanges (MERKLE_TREE_DEPTH - 1) (changesOf state.insertLeaves state.removeLeaves)
    notesTree.tree.leaves

/-- The mint and burn messages of a block in the order of its transactions, which
are to be settled on the contract. -/
def BlockState.settles (state : BlockState) : List UtxoKindMessages :=
  (state.txns.map UtxoProof.kindMessages).filter (· ≠ .none)

/-- What a commit leaves behind, also where the tree refuses the block. -/
def Chain.committed (poseidon : Poseidon) (keccak : Keccak) (tempNoir : Bool) (chain : Chain)
    (commit : Block × Nat) : Chain :=
  (chain.commitProposal poseidon keccak tempNoir commit.1 commit.2).1

/-- The two chains have the same tree and the same history of elements. -/
structure Chain.SameElements (poseidon : Poseidon) (first second : Chain) : Prop where
  root : first.notesTree.tree.rootHash (merge poseidon) =
    second.notesTree.tree.rootHash (merge poseidon)
  elements : ∀ element : Element,
    first.notesTree.tree.entries[element]? = second.notesTree.tree.entries[element]?
  elementHistory : ∀ element,
    first.store.getElementHistory element = second.store.getElementHistory element

/-- Two commits have the same effect: the same tree and indexes, and the same
messages to settle. -/
structure SameEffect (poseidon : Poseidon) (keccak : Keccak) (tempNoir : Bool) (chain : Chain)
    (first second : Block × Nat) : Prop where
  elements : Chain.SameElements poseidon (chain.committed poseidon keccak tempNoir first)
    (chain.committed poseidon keccak tempNoir second)
  mintHashes : ∀ mintHash,
    (chain.committed poseidon keccak tempNoir first).store.getMintHash mintHash =
      (chain.committed poseidon keccak tempNoir second).store.getMintHash mintHash
  messages : first.1.content.state.settles = second.1.content.state.settles

/-- No two of the byte strings and of the pairs of nodes that the two blocks have
hashed collide. -/
structure CollisionFree (poseidon : Poseidon) (keccak : Keccak) (notesTree : PersistentMerkleTree)
    (first second : BlockContent) : Prop where
  digest : Set.InjOn keccak {first.hashInput keccak, second.hashInput keccak}
  nodes : Set.InjOn (Function.uncurry (merge poseidon))
    (nodes (merge poseidon) (MERKLE_TREE_DEPTH - 1) (changedLeaves notesTree first.state) ∪
      nodes (merge poseidon) (MERKLE_TREE_DEPTH - 1) (changedLeaves notesTree second.state))

section

variable {poseidon : Poseidon} {keccak : Keccak} {verify : Verify} {tempNoir : Bool}
  {chain : Chain} {notesTree : PersistentMerkleTree} {content first second : BlockContent}

/-- Equal hashes come from equal roots and equal heights. -/
theorem root_height_of_hash
    (free : Set.InjOn keccak {first.hashInput keccak, second.hashInput keccak})
    (firstHeight : first.header.height < 2 ^ 64) (secondHeight : second.header.height < 2 ^ 64)
    (sameHash : first.hash keccak = second.hash keccak) :
    first.state.rootHash = second.state.rootHash ∧
      first.header.height = second.header.height := by
  have bytes : first.hashInput keccak = second.hashInput keccak :=
    free (Set.mem_insert _ _) (Set.mem_insert_of_mem _ rfl) sameHash
  unfold BlockContent.hashInput at bytes
  rw [List.append_assoc, List.append_assoc] at bytes
  rcases List.append_inj bytes (by simp [length_beBytes]) with ⟨roots, rest⟩
  rcases List.append_inj rest (by simp [length_beBytes]) with ⟨heights, _⟩
  constructor
  · apply BitVec.eq_of_toNat_eq
    exact eq_of_beBytes (BitVec.isLt _) (BitVec.isLt _) roots
  · have wide : 2 ^ 64 < 256 ^ 32 := by decide
    exact eq_of_beBytes (firstHeight.trans wide) (secondHeight.trans wide) heights

/-- A valid block announces the root of the leaves that are predicted for it. -/
theorem BlockValid.root_changedLeaves {store : Store}
    (wellFormed : notesTree.tree.WellFormed (merge poseidon))
    (valid : BlockValid poseidon verify store notesTree content) :
    (Batch.slots MERKLE_TREE_DEPTH
        (content.state.insertLeaves ++ content.state.removeLeaves)).Nodup ∧
      Merkle.root (merge poseidon) (MERKLE_TREE_DEPTH - 1) (changedLeaves notesTree content.state) =
        content.state.rootHash := by
  have root := valid.root
  unfold AnnouncesRoot at root
  split_ifs at root with empty
  · refine ⟨by simp [empty.1, empty.2, Batch.slots], ?_⟩
    rw [changedLeaves, empty.1, empty.2, ← root, wellFormed.rootHash_eq]
    rfl
  · exact (wellFormed.rootHashWith_eq_ok_iff MERKLE_TREE_DEPTH_pos).mp root

/-- The effect of a change on the predicted leaf. -/
theorem changedLeaves_of_change {state : BlockState}
    (slots : (Batch.slots MERKLE_TREE_DEPTH (state.insertLeaves ++ state.removeLeaves)).Nodup)
    {change : Smirk.Change × Element} (mem : change ∈ changesOf state.insertLeaves state.removeLeaves) :
    changedLeaves notesTree state (change.2.slot (MERKLE_TREE_DEPTH - 1)) =
      changeEffect change (notesTree.tree.leaves (change.2.slot (MERKLE_TREE_DEPTH - 1))) := by
  have distinct := (Batch.distinctSlots_changesOf_iff _ _).mpr slots
  have perm := sortChanges_perm MERKLE_TREE_DEPTH
    (changesOf state.insertLeaves state.removeLeaves)
  rw [changedLeaves, applyChanges, ← writeAll_perm _ perm distinct]
  exact writeAll_of_mem _ distinct (perm.mem_iff.mpr mem)

/-- A slot without a change keeps its leaf. -/
theorem changedLeaves_of_unchanged {state : BlockState} {slot : Nat}
    (unchanged : ∀ leaf ∈ state.insertLeaves ++ state.removeLeaves,
      leaf.slot (MERKLE_TREE_DEPTH - 1) ≠ slot) :
    changedLeaves notesTree state slot = notesTree.tree.leaves slot := by
  apply writeAll_of_notMem
  rintro ⟨kind, leaf⟩ mem
  apply unchanged
  simp only [changesOf, List.mem_append, List.mem_map, Prod.mk.injEq] at mem ⊢
  rcases mem with ⟨_, mem, _, rfl⟩ | ⟨_, mem, _, rfl⟩
  · exact .inl mem
  · exact .inr mem

/-- The leaf of the tree is not an element that is not in the tree. -/
theorem leaves_ne_of_not_mem {element : Element} (slot : Nat) (nonzero : element ≠ Element.ZERO)
    (absent : element ∉ notesTree.tree.entries) : notesTree.tree.leaves slot ≠ element := by
  intro same
  apply absent
  have occupied : notesTree.tree.leaves slot ≠ Element.ZERO := same ▸ nonzero
  exact same ▸ (Tree.mem_of_leaves occupied).1

namespace BlockValid

variable {store : Store} (wellFormed : notesTree.tree.WellFormed (merge poseidon))
  (valid : BlockValid poseidon verify store notesTree content)

include wellFormed valid

theorem changedLeaves_insert {leaf : Element} (mem : leaf ∈ content.state.insertLeaves) :
    changedLeaves notesTree content.state (leaf.slot (MERKLE_TREE_DEPTH - 1)) = leaf := by
  have isChange : (Smirk.Change.insert, leaf) ∈
      changesOf content.state.insertLeaves content.state.removeLeaves := by
    simp [changesOf, mem]
  exact changedLeaves_of_change (valid.root_changedLeaves wellFormed).1 isChange

theorem changedLeaves_remove {leaf : Element} (mem : leaf ∈ content.state.removeLeaves) :
    changedLeaves notesTree content.state (leaf.slot (MERKLE_TREE_DEPTH - 1)) =
      Element.ZERO := by
  have isChange : (Smirk.Change.remove, leaf) ∈
      changesOf content.state.insertLeaves content.state.removeLeaves := by
    simp [changesOf, mem]
  rw [changedLeaves_of_change (valid.root_changedLeaves wellFormed).1 isChange]
  exact if_pos (Tree.leaves_of_mem wellFormed.distinct (valid.removeLeaf_valid mem).2)

/-- The outputs of a block are the new leaves. -/
theorem mem_insertLeaves_iff (leaf : Element) :
    leaf ∈ content.state.insertLeaves ↔
      leaf ≠ Element.ZERO ∧ leaf ∉ notesTree.tree.entries ∧
        changedLeaves notesTree content.state (leaf.slot (MERKLE_TREE_DEPTH - 1)) = leaf := by
  constructor
  · intro mem
    rcases valid.insertLeaf_valid mem with ⟨nonzero, absent, _⟩
    exact ⟨nonzero, absent, valid.changedLeaves_insert wellFormed mem⟩
  · rintro ⟨nonzero, absent, changed⟩
    by_contra notOutput
    by_cases hit : ∃ other ∈ content.state.insertLeaves ++ content.state.removeLeaves,
        other.slot (MERKLE_TREE_DEPTH - 1) = leaf.slot (MERKLE_TREE_DEPTH - 1)
    · rcases hit with ⟨other, mem, sameSlot⟩
      rw [← sameSlot] at changed
      rcases List.mem_append.mp mem with inserted | removed
      · rw [valid.changedLeaves_insert wellFormed inserted] at changed
        exact notOutput (changed ▸ inserted)
      · rw [valid.changedLeaves_remove wellFormed removed] at changed
        exact nonzero changed.symm
    · push Not at hit
      rw [changedLeaves_of_unchanged hit] at changed
      exact leaves_ne_of_not_mem _ nonzero absent changed

/-- The inputs of a block are the leaves that become vacant. -/
theorem mem_removeLeaves_iff (leaf : Element) :
    leaf ∈ content.state.removeLeaves ↔
      leaf ∈ notesTree.tree.entries ∧
        changedLeaves notesTree content.state (leaf.slot (MERKLE_TREE_DEPTH - 1)) =
          Element.ZERO := by
  constructor
  · intro mem
    exact ⟨(valid.removeLeaf_valid mem).2, valid.changedLeaves_remove wellFormed mem⟩
  · rintro ⟨present, vacated⟩
    have held := Tree.leaves_of_mem wellFormed.distinct present
    by_contra notInput
    by_cases hit : ∃ other ∈ content.state.insertLeaves ++ content.state.removeLeaves,
        other.slot (MERKLE_TREE_DEPTH - 1) = leaf.slot (MERKLE_TREE_DEPTH - 1)
    · rcases hit with ⟨other, mem, sameSlot⟩
      rcases List.mem_append.mp mem with inserted | removed
      · rw [← sameSlot, valid.changedLeaves_insert wellFormed inserted] at vacated
        exact (valid.insertLeaf_valid inserted).1 vacated
      · obtain rfl := wellFormed.distinct other (valid.removeLeaf_valid removed).2 leaf present
          sameSlot
        exact notInput removed
    · push Not at hit
      rw [changedLeaves_of_unchanged hit, held] at vacated
      exact wellFormed.nonzero leaf present vacated

end BlockValid

/-! ## The indexes after a block -/

theorem getElem?_putAll {V : Type} (index : Std.TreeMap Element V) (keys : List Element)
    (value : V) (key : Element) :
    (BlockStore.putAll index keys value)[key]? =
      if key ∈ keys then some value else index[key]? := by
  simpa [BlockStore.putAll] using getElem?_foldl_insert id value keys index key

theorem getElementHistory_set (store : Store) (format : BlockFormat) (element : Element) :
    (store.set (BlockFormat.indexing poseidon keccak) format).getElementHistory element =
      (if element ∈ format.intoBlock.content.state.removeLeaves then
          some ⟨format.intoBlock.hash keccak, format.intoBlock.content.header.height⟩
        else store.inputHistory[element]?,
        if element ∈ format.intoBlock.content.state.insertLeaves then
          some ⟨format.intoBlock.hash keccak, format.intoBlock.content.header.height⟩
        else store.outputHistory[element]?) := by
  rw [BlockState.insertLeaves_eq, BlockState.removeLeaves_eq, ← BlockFormat.map_txn_txns keccak,
    List.flatMap_map, List.flatMap_map]
  exact Prod.ext (getElem?_putAll _ _ _ _) (getElem?_putAll _ _ _ _)

theorem getMintHash_set (store : Store) (format : BlockFormat) (mintHash : Element) :
    (store.set (BlockFormat.indexing poseidon keccak) format).getMintHash mintHash =
      if mintHash ∈ format.intoBlock.content.state.txns.filterMap UtxoProof.mintHash then
        some ⟨format.intoBlock.hash keccak, format.intoBlock.content.header.height⟩
      else store.mintHashes[mintHash]? := by
  rw [← BlockFormat.map_txn_txns keccak, List.filterMap_map]
  exact getElem?_putAll _ _ _ _

/-- The mint hash that a message of a transaction names. -/
def mintHashOf : UtxoKindMessages → Option Element
  | .mint messages => some messages.mintHash
  | .burn _ => none
  | .none => none

/-- The mint hashes of a block are among its messages. -/
theorem filterMap_mintHash (state : BlockState) :
    state.txns.filterMap UtxoProof.mintHash = state.settles.filterMap mintHashOf := by
  have named : UtxoProof.mintHash = mintHashOf ∘ UtxoProof.kindMessages := rfl
  rw [BlockState.settles, List.filterMap_filter, named, ← List.filterMap_map]
  apply List.filterMap_congr
  intro messages _
  cases messages <;> simp [mintHashOf]

/-! ## Committing two blocks -/

variable (keccak tempNoir) in
/-- What a valid block leaves behind: it is stored, and it is applied unless an
output falls on an occupied slot. -/
theorem committed_of_valid {commit : Block × Nat}
    (wellFormed : chain.notesTree.tree.WellFormed (merge poseidon))
    (valid : BlockValid poseidon verify chain.store chain.notesTree commit.1.content) :
    (chain.committed poseidon keccak tempNoir commit).store =
        chain.store.set (BlockFormat.indexing poseidon keccak) (.v2 commit.1 (some commit.2)) ∧
      (¬chain.notesTree.tree.Collides commit.1.content.state.insertLeaves ∧
          applyBlockToTree poseidon tempNoir chain.notesTree commit.1.content.state
              commit.1.content.header.height =
            .ok (chain.committed poseidon keccak tempNoir commit).notesTree ∨
        chain.notesTree.tree.Collides commit.1.content.state.insertLeaves ∧
          (chain.committed poseidon keccak tempNoir commit).notesTree = chain.notesTree) := by
  rcases commit with ⟨block, commitTime⟩
  unfold Chain.committed
  dsimp only
  have present : ∀ leaf ∈ block.content.state.removeLeaves, leaf ∈ chain.notesTree.tree.entries :=
    fun leaf mem => (valid.removeLeaf_valid mem).2
  cases applied : applyBlockToTree poseidon tempNoir chain.notesTree block.content.state
      block.content.header.height with
  | ok after =>
      have committed : chain.commitProposal poseidon keccak tempNoir block commitTime =
          (⟨chain.store.set (BlockFormat.indexing poseidon keccak) (.v2 block (some commitTime)),
            after⟩, .ok ()) :=
        Chain.commitProposal_eq_ok_iff.mpr ⟨present, rfl, applied⟩
      rw [committed]
      exact ⟨rfl, .inl ⟨not_collides_of_applyBlockToTree applied, rfl⟩⟩
  | error stop =>
      have collides : chain.notesTree.tree.Collides block.content.state.insertLeaves := by
        by_contra free
        rcases valid.commits tempNoir wellFormed free with ⟨after, done, _⟩
        rw [done] at applied
        cases applied
      have notMissing : ¬(block.content.state.removeLeaves.any fun leaf =>
          !chain.notesTree.tree.containsElement leaf) = true := by
        simpa [Tree.containsElement_iff] using present
      rw [Chain.commitProposal, if_neg notMissing, applied]
      exact ⟨rfl, .inr ⟨collides, rfl⟩⟩

/-- Trees with the same inputs and outputs applied at the same height agree. -/
theorem getElem?_eq_of_applyBlockToTree {firstState secondState : BlockState} {height : Nat}
    {firstAfter secondAfter : PersistentMerkleTree}
    (inserts : ∀ leaf, leaf ∈ firstState.insertLeaves ↔ leaf ∈ secondState.insertLeaves)
    (removes : ∀ leaf, leaf ∈ firstState.removeLeaves ↔ leaf ∈ secondState.removeLeaves)
    (firstApplied : applyBlockToTree poseidon tempNoir notesTree firstState height =
      .ok firstAfter)
    (secondApplied : applyBlockToTree poseidon tempNoir notesTree secondState height =
      .ok secondAfter) (element : Element) :
    firstAfter.tree.entries[element]? = secondAfter.tree.entries[element]? := by
  rw [getElem?_of_applyBlockToTree firstApplied, getElem?_of_applyBlockToTree secondApplied]
  simp only [inserts, removes]

/-- Valid blocks with the same hash spend and create the same commitments. -/
theorem same_leaves {store : Store} (wellFormed : notesTree.tree.WellFormed (merge poseidon))
    (firstValid : BlockValid poseidon verify store notesTree first)
    (secondValid : BlockValid poseidon verify store notesTree second)
    (free : CollisionFree poseidon keccak notesTree first second)
    (sameRoot : first.state.rootHash = second.state.rootHash) (leaf : Element) :
    (leaf ∈ first.state.insertLeaves ↔ leaf ∈ second.state.insertLeaves) ∧
      (leaf ∈ first.state.removeLeaves ↔ leaf ∈ second.state.removeLeaves) := by
  have roots : Merkle.root (merge poseidon) (MERKLE_TREE_DEPTH - 1)
        (changedLeaves notesTree first.state) =
      Merkle.root (merge poseidon) (MERKLE_TREE_DEPTH - 1)
        (changedLeaves notesTree second.state) := by
    rw [(firstValid.root_changedLeaves wellFormed).2, sameRoot,
      (secondValid.root_changedLeaves wellFormed).2]
  have sameLeaf := eq_of_root_eq free.nodes roots _ (leaf.slot_lt (MERKLE_TREE_DEPTH - 1))
  rw [firstValid.mem_insertLeaves_iff wellFormed, secondValid.mem_insertLeaves_iff wellFormed,
    firstValid.mem_removeLeaves_iff wellFormed, secondValid.mem_removeLeaves_iff wellFormed,
    sameLeaf]
  exact ⟨Iff.rfl, Iff.rfl⟩

section

variable {first second : Block × Nat}
  (wellFormed : chain.notesTree.tree.WellFormed (merge poseidon))
  (firstValid : BlockValid poseidon verify chain.store chain.notesTree first.1.content)
  (secondValid : BlockValid poseidon verify chain.store chain.notesTree second.1.content)
  (free : CollisionFree poseidon keccak chain.notesTree first.1.content second.1.content)
  (firstHeight : first.1.content.header.height < 2 ^ 64)
  (secondHeight : second.1.content.header.height < 2 ^ 64)
  (sameHash : first.1.hash keccak = second.1.hash keccak)

include wellFormed firstValid secondValid free firstHeight secondHeight sameHash

/-- Valid blocks with the same hash lead to the same tree and the same history of
elements. -/
theorem sameElements_of_hash (tempNoir : Bool) :
    Chain.SameElements poseidon (chain.committed poseidon keccak tempNoir first)
      (chain.committed poseidon keccak tempNoir second) := by
  rcases root_height_of_hash free.digest firstHeight secondHeight sameHash with
    ⟨sameRoot, sameHeight⟩
  have leaves := same_leaves wellFormed firstValid secondValid free sameRoot
  have collides : chain.notesTree.tree.Collides first.1.content.state.insertLeaves ↔
      chain.notesTree.tree.Collides second.1.content.state.insertLeaves := by
    simp only [Tree.Collides, fun leaf => (leaves leaf).1]
  rcases committed_of_valid keccak tempNoir wellFormed firstValid with ⟨firstStore, firstTree⟩
  rcases committed_of_valid keccak tempNoir wellFormed secondValid with ⟨secondStore, secondTree⟩
  have elementHistory : ∀ element,
      (chain.committed poseidon keccak tempNoir first).store.getElementHistory element =
        (chain.committed poseidon keccak tempNoir second).store.getElementHistory element := by
    intro element
    rw [firstStore, secondStore, getElementHistory_set, getElementHistory_set]
    simp only [BlockFormat.intoBlock, sameHash, sameHeight]
    exact Prod.ext (if_congr (leaves element).2 rfl rfl) (if_congr (leaves element).1 rfl rfl)
  rcases firstTree with ⟨firstFree, firstApplied⟩ | ⟨firstCollides, firstKept⟩
  · rcases secondTree with ⟨_, secondApplied⟩ | ⟨secondCollides, _⟩
    · constructor
      · rw [firstValid.rootHash_eq wellFormed firstApplied,
          secondValid.rootHash_eq wellFormed secondApplied, sameRoot]
      · rw [← sameHeight] at secondApplied
        exact getElem?_eq_of_applyBlockToTree (fun leaf => (leaves leaf).1)
          (fun leaf => (leaves leaf).2) firstApplied secondApplied
      · exact elementHistory
    · exact absurd (collides.mpr secondCollides) firstFree
  · rcases secondTree with ⟨secondFree, _⟩ | ⟨_, secondKept⟩
    · exact absurd (collides.mp firstCollides) secondFree
    · constructor
      · rw [firstKept, secondKept]
      · rw [firstKept, secondKept]
        exact fun _ => rfl
      · exact elementHistory

/-- Blocks with the same messages use the same mint hashes. -/
theorem mintHashes_of_settles (tempNoir : Bool)
    (messages : first.1.content.state.settles = second.1.content.state.settles)
    (mintHash : Element) :
    (chain.committed poseidon keccak tempNoir first).store.getMintHash mintHash =
      (chain.committed poseidon keccak tempNoir second).store.getMintHash mintHash := by
  rw [(committed_of_valid keccak tempNoir wellFormed firstValid).1,
    (committed_of_valid keccak tempNoir wellFormed secondValid).1, getMintHash_set,
    getMintHash_set]
  simp only [BlockFormat.intoBlock, sameHash,
    (root_height_of_hash free.digest firstHeight secondHeight sameHash).2, filterMap_mintHash,
    messages]

end

variable (verify) in
/-- After every history, two valid blocks with the same hash have the same effect
exactly when they carry the same mint and burn messages. -/
theorem sameEffect_iff_settles_eq {events : List Progress.Event} {progress : Progress}
    {first second : Block × Nat}
    (run : Run (Progress.Step poseidon keccak tempNoir) Progress.start events progress)
    (firstValidated : first.1.content.validate poseidon verify progress.chain.store
      progress.chain.notesTree = .ok ())
    (secondValidated : second.1.content.validate poseidon verify progress.chain.store
      progress.chain.notesTree = .ok ())
    (free : CollisionFree poseidon keccak progress.chain.notesTree first.1.content
      second.1.content)
    (firstHeight : first.1.content.header.height < 2 ^ 64)
    (secondHeight : second.1.content.header.height < 2 ^ 64)
    (sameHash : first.1.hash keccak = second.1.hash keccak) :
    SameEffect poseidon keccak tempNoir progress.chain first second ↔
      first.1.content.state.settles = second.1.content.state.settles := by
  have wellFormed := (Progress.sound_of_run run).wellFormed
  have firstValid := validate_eq_ok_iff.mp firstValidated
  have secondValid := validate_eq_ok_iff.mp secondValidated
  constructor
  · exact SameEffect.messages
  · intro messages
    constructor
    · exact sameElements_of_hash wellFormed firstValid secondValid free firstHeight secondHeight
        sameHash tempNoir
    · exact mintHashes_of_settles wellFormed firstValid secondValid free firstHeight secondHeight
        sameHash tempNoir messages
    · exact messages

/-! ## Transactions of nothing -/

/-- What the circuit is given for a transaction without inputs, outputs and value. -/
def leaflessWitness (kind hash address : Element) : Utxo.Witness where
  inputNotes := Vector.replicate 2 ⟨⟨0, 0, 0, 0⟩, 0⟩
  outputNotes := Vector.replicate 2 ⟨0, 0, 0, 0⟩
  pmessage4 := address.toBase
  commitments := Vector.replicate 4 0
  messages := #v[kind.toBase, 0, 0, hash.toBase, address.toBase]

/-- The circuit accepts it if the rule of its kind allows for it. -/
@[simp]
theorem leaflessWitness_accepted {kind hash address : Element}
    (rule : Utxo.KindRule poseidon (leaflessWitness kind hash address)) :
    Utxo.main poseidon (leaflessWitness kind hash address) = .ok () := by
  have padding : Noir.Commits poseidon ⟨0, 0, 0, 0⟩ 0 := .inl ⟨rfl, rfl, rfl⟩
  have worthless : Utxo.Owned poseidon ⟨⟨0, 0, 0, 0⟩, 0⟩ := fun value => absurd rfl value
  have small : ((0 : Base) : Nat) < 2 ^ 240 := by decide
  apply Utxo.main_eq_ok_iff.mpr
  refine ⟨padding, padding, padding, padding, small, small, ?_, small, rule, worthless, worthless⟩
  refine ⟨0, fun note mem notPadding => ?_⟩
  simp only [Utxo.Witness.notes, List.mem_cons, List.not_mem_nil, or_false] at mem
  rcases mem with rfl | rfl | rfl | rfl <;> exact absurd rfl notPadding

@[simp]
theorem publicInputs_leaflessWitness (proof : List (BitVec 8)) (kind hash address : Element) :
    (leaflessWitness kind hash address).publicInputs =
      (leaflessTxn proof kind hash address).publicInputs.residues := by
  rw [UtxoPublicInput.residues, UtxoPublicInput.fields, Vector.map_append,
    Utxo.Witness.publicInputs]
  simp only [leaflessWitness, leaflessTxn, UtxoPublicInput.single, UtxoPublicInput.commitments,
    Vector.mk_append_mk, Vector.map_mk, List.append_toArray, List.cons_append, List.nil_append,
    List.map_toArray, List.map_cons, List.map_nil]
  rfl

/-- A burn without inputs and without value, with a free address. -/
def emptyBurn (proof : List (BitVec 8)) (address : Element) : UtxoProof :=
  leaflessTxn proof 3 0 address

/-- The circuit accepts a burn of nothing to any address. -/
@[simp]
theorem emptyBurn_accepted (poseidon : Poseidon) (address : Element) :
    Utxo.main poseidon (leaflessWitness 3 0 address) = .ok () :=
  leaflessWitness_accepted (.burn (.inl rfl) rfl rfl rfl rfl)

/-- A block of one burn, with given root, proof and address. -/
def emptyBurnBlock (rootHash : Element) (proof : List (BitVec 8)) (address : Element) : Block :=
  leaflessBlock 1 rootHash (emptyBurn proof address)

/-- Such a block is a valid first block. -/
@[simp]
theorem emptyBurnBlock_validate (poseidon : Poseidon) (proof : List (BitVec 8))
    (address : Element) :
    (emptyBurnBlock (emptyTree.tree.rootHash (merge poseidon)) proof address).content.validate
      poseidon (fun _ => true) {} emptyTree = .ok () := by
  apply validate_eq_ok_iff.mpr
  apply leaflessBlock_valid 1 rfl
  intro mintHash _
  exact BlockStore.not_minted_empty mintHash

@[simp]
theorem settles_emptyBurnBlock (rootHash : Element) (proof : List (BitVec 8))
    (address : Element) :
    (emptyBurnBlock rootHash proof address).content.state.settles =
      [.burn ⟨3, 0, 0, 0, address⟩] := by
  simp [BlockState.settles, emptyBurnBlock, leaflessBlock, emptyBurn, leaflessTxn,
    UtxoProof.kindMessages, UtxoPublicInput.single, UtxoPublicInput.kindMessages, UtxoPublicInput.kind, UtxoKind.ofByte,
    get_eq_getElem]

/-- Under this hash nothing that the burns have hashed collides. -/
theorem collisionFree_emptyBurnBlock (keccak : Keccak) (rootHash : Element)
    (firstProof secondProof : List (BitVec 8)) (first second : Element) :
    CollisionFree levelHash keccak emptyTree (emptyBurnBlock rootHash firstProof first).content
      (emptyBurnBlock rootHash secondProof second).content := by
  have unchanged : ∀ (proof : List (BitVec 8)) (address : Element),
      changedLeaves emptyTree (emptyBurnBlock rootHash proof address).content.state =
        fun _ => Element.ZERO := by
    intro proof address
    have leaves := leaves_leaflessBlock 1 rootHash proof 3 0 address
    rw [← emptyBurn, ← emptyBurnBlock] at leaves
    rw [← leaves_emptyTree]
    funext slot
    exact changedLeaves_of_unchanged (by simp [leaves.1, leaves.2])
  constructor
  · rintro _ (rfl | rfl) _ (rfl | rfl) _ <;> rfl
  · rw [unchanged, unchanged, Set.union_self]
    exact injOn_nodes_levelHash

/-- Two proofs of one burn make blocks with the same effect. -/
theorem sameBurn_sameEffect :
    SameEffect levelHash (fun _ => 0) false Chain.genesis
      (emptyBurnBlock (emptyTree.tree.rootHash (merge levelHash)) [0] 1, 0)
      (emptyBurnBlock (emptyTree.tree.rootHash (merge levelHash)) [1] 1, 1) := by
  have run : Run (Progress.Step levelHash (fun _ => 0) false) Progress.start []
      Progress.start := .nil
  have small : 1 < 2 ^ 64 := by decide
  refine (sameEffect_iff_settles_eq (fun _ => true) run ?_ ?_ ?_ ?_ ?_ ?_).mpr ?_
  · exact emptyBurnBlock_validate levelHash [0] 1
  · exact emptyBurnBlock_validate levelHash [1] 1
  · exact collisionFree_emptyBurnBlock _ _ _ _ _ _
  · exact small
  · exact small
  · rfl
  · rw [settles_emptyBurnBlock, settles_emptyBurnBlock]

/-- Burns to two addresses, both accepted by the circuit, make valid blocks with
the same hash and different messages. -/
theorem burnAddress_unbound :
    (∀ address, Utxo.main levelHash (leaflessWitness 3 0 address) = .ok () ∧
        (leaflessWitness 3 0 address).publicInputs =
          (emptyBurn [] address).publicInputs.residues) ∧
      ∃ first second : Block,
        first.content.state.txns = [emptyBurn [] 1] ∧
        second.content.state.txns = [emptyBurn [] 2] ∧
        first.content.validate levelHash (fun _ => true) {} emptyTree = .ok () ∧
        second.content.validate levelHash (fun _ => true) {} emptyTree = .ok () ∧
        ∀ keccak : Keccak,
          CollisionFree levelHash keccak emptyTree first.content second.content ∧
            first.hash keccak = second.hash keccak ∧
            ¬SameEffect levelHash keccak false Chain.genesis (first, 0) (second, 0) := by
  refine ⟨fun address => ⟨emptyBurn_accepted levelHash address,
      publicInputs_leaflessWitness [] 3 0 address⟩,
    emptyBurnBlock (emptyTree.tree.rootHash (merge levelHash)) [] 1,
    emptyBurnBlock (emptyTree.tree.rootHash (merge levelHash)) [] 2, rfl, rfl,
    emptyBurnBlock_validate levelHash [] 1, emptyBurnBlock_validate levelHash [] 2,
    fun keccak => ⟨collisionFree_emptyBurnBlock _ _ _ _ _ _, rfl, ?_⟩⟩
  intro same
  have messages := same.messages
  rw [settles_emptyBurnBlock, settles_emptyBurnBlock] at messages
  exact absurd messages (by decide)

end

end Ciphera.Node
