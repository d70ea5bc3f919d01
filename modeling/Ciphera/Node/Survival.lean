import Ciphera.Node.Height
import Ciphera.Node.Peers
import Ciphera.Node.Rejection

/-!
# Nodes that survive their peers

A handler panics on an approval that is no endorsement, on a signature that does not
parse, on a range that ends before it starts, and in a validator on every block.  The
tick after it looks at the next cached block and meets the same signatures.  As long as
no message does any of that, and none of the other things that are listed below, neither
the handlers nor the ticks of a node panic, whatever the messages are and in whatever
order they come.
-/

namespace Ciphera.Smirk.Batch

open Ciphera.Lib

variable {DEPTH : Nat} {V : Type}

/-- Every occupied slot is that of an element of the batch. -/
def Listed (batch : Batch DEPTH V) : Prop :=
  ∀ lsb ∈ batch.lsbs, ∃ element ∈ batch.insertElements ++ batch.removeEntries,
    element.slot (DEPTH - 1) = lsb

theorem listed_empty : ({} : Batch DEPTH V).Listed := by
  intro lsb mem
  exact absurd mem List.not_mem_nil

theorem returns_claimSlot {batch : Batch DEPTH V} (narrow : DEPTH ≤ 257) (listed : batch.Listed)
    (element : Element) : Returns (batch.claimSlot element) := by
  unfold claimSlot
  dsimp only
  split_ifs with deep taken
  · omega
  · rcases listed _ taken with ⟨other, mem, same⟩
    cases found : batch.findElementWithLsb (element.slot (DEPTH - 1)) with
    | some inTree => exact returns_error _
    | none =>
        rw [findElementWithLsb, List.find?_eq_none] at found
        exact absurd (decide_eq_true same) (found other mem)
  · exact returns_ok _

theorem Listed.push {batch : Batch DEPTH V} (listed : batch.Listed) (entry : Element × V) :
    (batch.push entry).Listed := by
  intro lsb mem
  simp only [Batch.push, insertElements, List.map_append, List.map_cons, List.map_nil]
  rcases List.mem_append.mp mem with old | new
  · rcases listed lsb old with ⟨element, elementMem, same⟩
    refine ⟨element, ?_, same⟩
    rcases List.mem_append.mp elementMem with inserted | removed
    · exact List.mem_append_left _ (List.mem_append_left _ inserted)
    · exact List.mem_append_right _ removed
  · refine ⟨entry.1, ?_, (List.mem_singleton.mp new).symm⟩
    exact List.mem_append_left _ (List.mem_append_right _ (List.mem_singleton_self _))

theorem Listed.pushRemove {batch : Batch DEPTH V} (listed : batch.Listed) (element : Element) :
    (batch.pushRemove element).Listed := by
  intro lsb mem
  rcases List.mem_append.mp mem with old | new
  · rcases listed lsb old with ⟨other, otherMem, same⟩
    refine ⟨other, ?_, same⟩
    rcases List.mem_append.mp otherMem with inserted | removed
    · exact List.mem_append_left _ inserted
    · exact List.mem_append_right _ (List.mem_append_left _ removed)
  · refine ⟨element, ?_, (List.mem_singleton.mp new).symm⟩
    exact List.mem_append_right _ (List.mem_append_right _ (List.mem_singleton_self _))

/-- A batch is built or its entries collide. -/
theorem returns_fromEntries (narrow : DEPTH ≤ 257) (entries : List (Element × V))
    (removeEntries : List Element) :
    Returns (fromEntries entries removeEntries : Except (Stop CollisionError) (Batch DEPTH V)) := by
  have inserted : ∀ (batch : Batch DEPTH V) (entry : Element × V) (next : Batch DEPTH V),
      batch.Listed → batch.insert entry.1 entry.2 = .ok next → next.Listed := by
    intro batch entry next listed done
    rcases insert_eq_ok_iff.mp done with ⟨_, _, rfl⟩
    exact listed.push entry
  have removed : ∀ (batch : Batch DEPTH V) (element : Element) (next : Batch DEPTH V),
      batch.Listed → batch.remove element = .ok next → next.Listed := by
    intro batch element next listed done
    rcases remove_eq_ok_iff.mp done with ⟨_, _, rfl⟩
    exact listed.pushRemove element
  apply Returns.bind
  · apply returns_foldlM _ inserted listed_empty
    intro batch entry listed
    exact (returns_claimSlot narrow listed entry.1).bind fun _ _ => returns_ok _
  · intro batch filled
    apply returns_foldlM _ removed (invariant_of_foldlM inserted listed_empty filled)
    intro batch element listed
    exact (returns_claimSlot narrow listed element).bind fun _ _ => returns_ok _

end Ciphera.Smirk.Batch

namespace Ciphera.Node

open Ciphera.Lib Ciphera.Noir Ciphera.Smirk Ciphera.Zk
open Ciphera.Rollup (Address)

/-! ## Applying a block -/

section

variable {poseidon : Poseidon} {notesTree : PersistentMerkleTree} {tempNoir : Bool}

theorem returns_liftCollision {α : Type} {result : Except (Stop CollisionError) α}
    (returns : Returns result) : Returns (liftCollision result) := by
  rcases result with (failure | message) | value
  · exact returns_error _
  · exact absurd rfl (returns message)
  · exact returns_ok value

/-- An output on an occupied slot is reported. -/
theorem returns_insertBatch_of_collides {batch : Batch MERKLE_TREE_DEPTH SmirkMetadata}
    {tree : Tree MERKLE_TREE_DEPTH SmirkMetadata}
    (collides : tree.Collides batch.insertElements)
    (present : ∀ element ∈ batch.removeEntries, element ∈ tree.entries) :
    Returns (tree.insertBatch (merge poseidon) tempNoir batch) := by
  have none : tree.missing batch = [] := by
    rw [Tree.missing, List.filter_eq_nil_iff]
    intro element mem
    simpa using ⟨element, present element mem, rfl⟩
  have some : tree.collisions batch ≠ [] := by
    rw [ne_eq, Tree.collisions_eq_nil_iff]
    exact not_not_intro collides
  have reported : tree.checkCollisions tempNoir batch = .error (.error ⟨tree.collisions batch⟩) := by
    simp [Tree.checkCollisions, none, check, some]
  rw [Tree.insertBatch, reported]
  exact returns_error _

/-- A block is applied or refused with an error if the tree has its inputs. -/
theorem returns_applyBlockToTree {state : BlockState} (currentHeight : Nat)
    (wellFormed : notesTree.tree.WellFormed (merge poseidon))
    (present : ∀ leaf ∈ state.removeLeaves, leaf ∈ notesTree.tree.entries) :
    Returns (applyBlockToTree poseidon tempNoir notesTree state currentHeight) := by
  unfold applyBlockToTree
  apply (returns_liftCollision (Batch.returns_fromEntries (by decide) _ _)).bind
  intro batch built
  rcases BlockState.fromEntries_eq_ok_iff.mp (liftCollision_eq_ok_iff.mp built) with ⟨slots, rfl⟩
  apply returns_liftCollision
  rw [Persistent.insertBatch]
  split_ifs
  · exact returns_ok _
  apply Returns.bind
  · by_cases collides : notesTree.tree.Collides (state.batch currentHeight).insertElements
    · exact returns_insertBatch_of_collides collides present
    · have fits : notesTree.tree.Fits (state.batch currentHeight) := by
        constructor
        · rwa [BlockState.insertElements_batch]
        · intro element mem
          rw [BlockState.insertElements_batch] at mem
          rcases List.mem_append.mp mem with inserted | removed
          · simpa using (List.mem_filter.mp inserted).2
          · simpa using (List.mem_filter.mp removed).2
        · exact collides
        · exact present
      rcases fits.exists_insertBatch tempNoir MERKLE_TREE_DEPTH_pos wellFormed with ⟨after, done⟩
      exact returns_of_eq_ok done
  · exact fun _ _ => returns_ok _

/-- A block whose inputs are in the tree is committed or refused with an error. -/
theorem returns_commitProposal {Key S : Type} {keccak : Keccak} {node : NodeShared Key S}
    {block : Block} (commitTime : Nat)
    (wellFormed : node.chain.notesTree.tree.WellFormed (merge poseidon))
    (present : ∀ leaf ∈ block.content.state.removeLeaves,
      leaf ∈ node.chain.notesTree.tree.entries) :
    Returns (node.commitProposal poseidon keccak tempNoir block commitTime).2 := by
  have spendable : ¬(block.content.state.removeLeaves.any fun inputCommitment =>
      !node.chain.notesTree.tree.containsElement inputCommitment) = true := by
    simpa [Tree.containsElement_iff] using present
  have applies : Returns (applyBlockToTree poseidon tempNoir node.chain.notesTree
      block.content.state block.content.header.height) :=
    returns_applyBlockToTree _ wellFormed present
  rw [NodeShared.commitProposal, Chain.commitProposal, if_neg spendable]
  dsimp only
  cases applied : applyBlockToTree poseidon tempNoir node.chain.notesTree block.content.state
      block.content.header.height with
  | ok notesTree => exact returns_ok _
  | error stop =>
      cases stop with
      | error failure => exact returns_error failure
      | panic message => exact absurd applied (applies message)

end

/-! ## Validating transactions and blocks -/

section

variable {poseidon : Poseidon} {verify : Verify} {store : Store}
  {notesTree : PersistentMerkleTree} {contract : Rollup.Storage}

theorem returns_ensure (condition : Prop) [Decidable condition] (error : RpcError) :
    Returns (ensure condition error) :=
  returns_check condition _

theorem returns_checkOutput (leaf : Element) : Returns (checkOutput store notesTree leaf) := by
  unfold checkOutput
  apply (returns_ensure _ _).bind
  intro _ _
  split_ifs
  · exact (returns_ensure _ _).bind fun _ _ => returns_ensure _ _
  · exact returns_ok _

theorem returns_checkInput (leaf : Element) : Returns (checkInput notesTree leaf) :=
  (returns_ensure _ _).bind fun _ _ => returns_ensure _ _

theorem returns_validateTxn (utxoProof : UtxoProof) :
    Returns (validateTxn verify store notesTree utxoProof) := by
  unfold validateTxn
  apply (returns_ensure _ _).bind
  intro _ _
  apply (returns_ensure _ _).bind
  intro _ _
  apply (returns_ensure _ _).bind
  intro _ _
  apply (returns_forM fun leaf _ => returns_checkOutput leaf).bind
  intro _ _
  apply (returns_forM fun leaf _ => returns_checkInput leaf).bind
  intro _ _
  cases utxoProof.mintHash with
  | some mintHash => exact returns_ensure _ _
  | none => exact returns_ok _

theorem returns_validateTransaction (utxo : UtxoProof) :
    Returns (validateTransaction verify contract store notesTree utxo) := by
  unfold validateTransaction
  apply Returns.bind
  · unfold checkKindMessages
    cases utxo.kindMessages with
    | none => exact returns_ok _
    | burn burnMsgs => exact returns_ok _
    | mint mintMsgs =>
        unfold checkMint
        dsimp only
        cases getMint contract mintMsgs.mintHash with
        | none => exact returns_error _
        | some mint => exact (returns_ensure _ _).bind fun _ _ => returns_ensure _ _
  · exact fun _ _ => returns_validateTxn utxo

theorem returns_receiveTransaction {S : Type} (mempool : NodeMempool S) (txn : UtxoProof) :
    Returns (receiveTransaction poseidon verify contract store notesTree mempool txn) := by
  unfold receiveTransaction
  cases validated : validateTransaction verify contract store notesTree txn with
  | error stop =>
      cases stop with
      | error failure => exact returns_ok _
      | panic message => exact absurd validated (returns_validateTransaction txn message)
  | ok done =>
      dsimp only
      cases addTransaction poseidon mempool txn none with
      | ok next => exact returns_ok _
      | error failure =>
          cases failure with
          | conflict change => exact returns_error _
          | duplicateKey => exact returns_ok _

theorem returns_claim (add : BlockLeaves → Element → BlockLeaves) (leaves : BlockLeaves)
    (leaf : Element) : Returns (BlockLeaves.claim add leaves leaf) := by
  unfold BlockLeaves.claim
  split_ifs
  · exact returns_ok _
  · exact (returns_ensure _ _).bind fun _ _ => returns_ok _

theorem returns_claims (add : BlockLeaves → Element → BlockLeaves) (leaves : BlockLeaves)
    (commitments : List Element) : Returns (commitments.foldlM (BlockLeaves.claim add) leaves) := by
  have kept : ∀ (leaves : BlockLeaves) (leaf : Element) (next : BlockLeaves), True →
      BlockLeaves.claim add leaves leaf = .ok next → True := fun _ _ _ _ _ => trivial
  exact returns_foldlM (fun leaves leaf _ => returns_claim add leaves leaf) kept trivial

theorem returns_validateRound (leaves : BlockLeaves) (utxoProof : UtxoProof) :
    Returns (validateRound poseidon verify store notesTree leaves utxoProof) := by
  unfold validateRound
  dsimp only
  apply (returns_claims _ _ _).bind
  intro _ _
  apply (returns_claims _ _ _).bind
  intro _ _
  exact (returns_validateTxn utxoProof).bind fun _ _ => returns_ok _

/-- No two commitments of the block share a slot of the tree. -/
def BlockState.SlotsApart (state : BlockState) : Prop :=
  (state.insertLeaves ++ state.removeLeaves).Nodup →
    (Batch.slots MERKLE_TREE_DEPTH (state.insertLeaves ++ state.removeLeaves)).Nodup

/-- The validation of a content returns unless different commitments share a slot. -/
theorem returns_validate {content : BlockContent}
    (wellFormed : notesTree.tree.WellFormed (merge poseidon))
    (slotsApart : content.state.SlotsApart) :
    Returns (content.validate poseidon verify store notesTree) := by
  have kept : ∀ (leaves : BlockLeaves) (txn : UtxoProof) (next : BlockLeaves), True →
      validateRound poseidon verify store notesTree leaves txn = .ok next → True :=
    fun _ _ _ _ _ => trivial
  unfold BlockContent.validate
  apply Returns.bind
  · exact returns_foldlM (fun leaves txn _ => returns_validateRound leaves txn) kept trivial
  intro leaves claimed
  have start : ({} : BlockLeaves).elements.Nodup := List.nodup_nil
  rcases (foldlM_validateRound_eq_ok_iff start).mp claimed with ⟨distinct, _, rfl⟩
  have slots := slotsApart ((nodup_blockElements_iff content.state).mp distinct)
  apply Returns.bind
  · rw [newRootHash, map_insertTxnLeaves, map_removeTxnLeaves,
      (wellFormed.rootHashWith_eq_ok_iff MERKLE_TREE_DEPTH_pos).mpr ⟨slots, rfl⟩]
    split_ifs
    · exact returns_ok _
    · exact returns_ok _
  · exact fun _ _ => returns_check _ _

end

/-! ## Cached blocks -/

namespace BlockCache

variable {keccak : Keccak} {cache smaller : BlockCache} {block : Block} {height : Nat}

/-- Some height has an entry. -/
def Occupied (cache : BlockCache) : Prop := ∃ height, height ∈ cache.blockHashHeights

/-- The block is cached above the confirmed one. -/
def Waits (cache : BlockCache) (block : Block) : Prop :=
  ∃ height, cache.height < height ∧ cache.getByHeight height = some block

theorem occupied_of_entry {hash : CryptoHash}
    (entry : cache.blockHashHeights[height]? = some hash) : cache.Occupied :=
  ⟨height, (Std.TreeMap.getElem?_eq_some_iff.mp entry).fst⟩

/-- A cache with an entry can be asked whether blocks are missing. -/
theorem Occupied.exists_isOutOfSync (occupied : cache.Occupied) :
    ∃ outOfSync, cache.isOutOfSync = .ok outOfSync := by
  rcases occupied with ⟨height, mem⟩
  rcases Option.isSome_iff_exists.mp (Std.TreeMap.isSome_maxKey?_of_mem mem) with ⟨last, greatest⟩
  rw [isOutOfSync, greatest]
  exact ⟨_, rfl⟩

/-- An inserted block takes a place, and a block that is not inserted takes none away. -/
theorem occupied_insert (keccak : Keccak) (held : cache.Occupied ∨ cache.Takes block) :
    (cache.insert keccak block).Occupied := by
  by_cases taken : cache.Takes block
  · have entry : (cache.insert keccak block).blockHashHeights[block.content.header.height]? =
        some (block.hash keccak) := by
      rw [(insert_of_takes keccak taken).2, getElem?_insert_eq, if_pos rfl]
    exact occupied_of_entry entry
  · rcases held with ⟨height, mem⟩ | takes
    · exact ⟨height, (insert_of_not_takes keccak taken).2 ▸ mem⟩
    · exact absurd takes taken

theorem occupied_confirm (known : height ∈ cache.blockHashHeights) {confirmed : Nat}
    (atLeast : confirmed ≤ height) : (cache.confirm confirmed).Occupied := by
  have entry := heights_confirm cache confirmed height
  rw [if_neg (Nat.not_lt_of_le atLeast), Std.TreeMap.getElem?_eq_some_getElem known] at entry
  exact occupied_of_entry entry

theorem getByHeight_of_within (within : smaller.Within cache)
    (found : smaller.getByHeight height = some block) : cache.getByHeight height = some block := by
  rcases Option.bind_eq_some_iff.mp found with ⟨hash, entry, isBlock⟩
  exact Option.bind_eq_some_iff.mpr ⟨hash, within.heights entry, within.blocks isBlock⟩

theorem Labelled.height_eq (labelled : cache.Labelled keccak)
    (found : cache.getByHeight height = some block) : block.content.header.height = height := by
  rcases Option.bind_eq_some_iff.mp found with ⟨hash, entry, isBlock⟩
  exact labelled.named entry isBlock

/-- The next block stays cached when it is confirmed. -/
theorem occupied_confirm_next (labelled : cache.Labelled keccak)
    (nextBlock : cache.getNextCommitBlock = some block) :
    (cache.confirm block.content.header.height).Occupied := by
  rcases getNextCommitBlock_eq_some_iff.mp nextBlock with ⟨hash, entry, isBlock⟩
  rw [labelled.named entry isBlock]
  exact occupied_confirm (Std.TreeMap.getElem?_eq_some_iff.mp entry).fst le_rfl

/-- A dropped block is no longer the next one. -/
theorem next_remove (labelled : cache.Labelled keccak)
    (nextBlock : cache.getNextCommitBlock = some block) :
    (cache.remove (block.hash keccak)).getNextCommitBlock = none := by
  rcases getNextCommitBlock_eq_some_iff.mp nextBlock with ⟨hash, entry, isBlock⟩
  have own := labelled.hashed isBlock
  have gone : (cache.remove (block.hash keccak)).blockHashHeights[cache.height + 1]? = none := by
    rw [own, remove, isBlock]
    dsimp only
    rw [getElem?_erase_eq, if_pos (labelled.named entry isBlock)]
  rw [getNextCommitBlock, getByHeight, height_remove, gone]
  rfl

/-! ## The blocks that are still to come -/

open Classical in
/-- The cached blocks above the confirmed height. -/
noncomputable def ahead (cache : BlockCache) : Finset CryptoHash :=
  cache.blocks.keys.toFinset.filter fun hash =>
    ∃ block, cache.blocks[hash]? = some block ∧ cache.height < block.content.header.height

@[simp]
theorem mem_ahead {hash : CryptoHash} : hash ∈ cache.ahead ↔
    ∃ block, cache.blocks[hash]? = some block ∧ cache.height < block.content.header.height := by
  rw [ahead, Finset.mem_filter, List.mem_toFinset, Std.TreeMap.mem_keys]
  constructor
  · exact And.right
  · rintro ⟨block, isBlock, above⟩
    exact ⟨(Std.TreeMap.getElem?_eq_some_iff.mp isBlock).fst, block, isBlock, above⟩

theorem card_ahead_le (cache : BlockCache) : cache.ahead.card ≤ cache.blocks.size := by
  calc cache.ahead.card
      ≤ cache.blocks.keys.toFinset.card := Finset.card_le_card (Finset.filter_subset _ _)
    _ ≤ cache.blocks.keys.length := List.toFinset_card_le _
    _ = cache.blocks.size := Std.TreeMap.length_keys

/-- A cache that is higher up, or has lost its next block, has less to come. -/
theorem card_ahead_lt (labelled : cache.Labelled keccak)
    (nextBlock : cache.getNextCommitBlock = some block) (within : smaller.Within cache)
    (notBelow : cache.height ≤ smaller.height)
    (gone : smaller.blocks[block.hash keccak]? = none ∨
      block.content.header.height ≤ smaller.height) :
    smaller.ahead.card < cache.ahead.card := by
  rcases getNextCommitBlock_eq_some_iff.mp nextBlock with ⟨hash, entry, isBlock⟩
  have own := labelled.hashed isBlock
  have height : block.content.header.height = cache.height + 1 := labelled.named entry isBlock
  apply Finset.card_lt_card
  rw [Finset.ssubset_iff_of_subset]
  · refine ⟨hash, mem_ahead.mpr ⟨block, isBlock, height ▸ Nat.lt_succ_self _⟩, ?_⟩
    intro mem
    rcases mem_ahead.mp mem with ⟨other, isOther, above⟩
    rcases gone with absent | confirmed
    · rw [own, isOther] at absent
      cases absent
    · have same : block = other := Option.some.inj (isBlock.symm.trans (within.blocks isOther))
      exact absurd above (Nat.not_lt_of_le (same ▸ confirmed))
  · intro any mem
    rcases mem_ahead.mp mem with ⟨other, isOther, above⟩
    exact mem_ahead.mpr ⟨other, within.blocks isOther, Nat.lt_of_le_of_lt notBelow above⟩

end BlockCache

/-! ## Validating a block of a peer -/

/-- A signature whose recovery id is known has two integers of the right size. -/
def Signature.Parses {Key : Type} (secp : Secp256k1 Key) (signature : Signature) : Prop :=
  signature.v.toNat ≤ 3 → secp.fromCompact signature = true

theorem Signature.Parses.exists_verify {Key : Type} {keccak : Keccak} {secp : Secp256k1 Key}
    {signature : Signature} (parses : signature.Parses secp) (msg : CryptoHash) :
    ∃ signedBy, signature.verify keccak secp msg = .ok signedBy := by
  unfold Signature.verify
  split_ifs with unknown malformed
  · exact ⟨_, rfl⟩
  · exact ⟨_, rfl⟩
  · exact absurd (parses (Nat.le_of_not_lt unknown)) malformed

/-- Some validator leads whenever there is a list of validators. -/
theorem exists_leaderAmong {signerAddress : Address} {validatorSets : List ValidatorSet}
    {height : Nat} {validators : List Address}
    (read : validatorsForHeight signerAddress validatorSets height = .ok validators) :
    ∃ leader, leaderAmong validators height = .ok leader := by
  have nonempty : 0 < validators.length := by
    rcases bind_eq_ok_iff.mp read with ⟨found, _, chosen⟩
    rw [← pure_eq_ok_iff.mp chosen]
    split_ifs with isEmpty
    · exact Nat.one_pos
    · rw [List.isEmpty_iff] at isEmpty
      exact List.length_pos_of_ne_nil isEmpty
  rw [leaderAmong, List.getElem?_eq_getElem (Nat.mod_lt height nonempty)]
  exact ⟨_, rfl⟩

namespace NodeShared

variable {Key S : Type} {poseidon : Poseidon} {keccak : Keccak} {verify : Verify}
  {secp : Secp256k1 Key} {tempNoir : Bool} {node : NodeShared Key S} {block : Block}

theorem exists_leader_of_validators {height : Nat} {validators : List Address}
    (read : node.validatorsForHeight height = .ok validators) :
    ∃ leader, leaderAmong validators height = .ok leader ∧
      node.getLeaderForBlockHeight height = .ok leader := by
  rcases exists_leaderAmong (orPanic_eq_ok_iff.mp read) with ⟨leader, leads⟩
  refine ⟨leader, leads, ?_⟩
  rw [getLeaderForBlockHeight, read]
  change orPanic (leaderAmong validators height) = .ok leader
  rw [leads]
  rfl

variable (secp) in
/-- Nothing in the block stops its validation: the validators of its height are known,
its signature parses and its commitments have slots of their own. -/
structure Legible (node : NodeShared Key S) (block : Block) : Prop where
  validators : ∃ validators, node.validatorsForHeight block.content.header.height = .ok validators
  signature : block.signature.Parses secp
  slots : block.content.state.SlotsApart

/-- A legible block passes validation or is refused with an error. -/
theorem returns_validateBlock (wellFormed : node.chain.notesTree.tree.WellFormed (merge poseidon))
    (legible : ¬node.badBlocks.contains block.content.header.height = true →
      node.Legible secp block) :
    Returns (node.validateBlock poseidon keccak verify secp block) := by
  unfold validateBlock
  split_ifs with bad
  · exact returns_ok _
  rcases legible bad with ⟨⟨validators, read⟩, parses, slots⟩
  rcases exists_leader_of_validators read with ⟨leader, _, leads⟩
  rcases parses.exists_verify (block.hash keccak) with ⟨signedBy, verified⟩
  apply (returns_of_eq_ok leads).bind
  intro _ _
  apply (returns_of_eq_ok (orPanic_eq_ok_iff.mpr verified)).bind
  intro _ _
  apply (returns_check _ _).bind
  intro _ _
  exact returns_validate wellFormed slots

/-! ## The loop over cached blocks -/

variable (secp) in
/-- What a cached block must be when the loop comes to it.  A bad block is not looked
at, so the tree must have its inputs and no earlier cached block may spend them. -/
def Benign (node : NodeShared Key S) (block : Block) : Prop :=
  if node.badBlocks.contains block.content.header.height then
    ∀ leaf ∈ block.content.state.removeLeaves, leaf ∈ node.chain.notesTree.tree.entries ∧
      ∀ other, node.blockCache.Waits other →
        other.content.header.height < block.content.header.height →
          leaf ∉ other.content.state.removeLeaves
  else node.Legible secp block

variable (poseidon keccak) in
/-- What the loop leaves behind. -/
structure Intact (node : NodeShared Key S) : Prop where
  labelled : node.blockCache.Labelled keccak
  occupied : node.blockCache.Occupied
  wellFormed : node.chain.notesTree.tree.WellFormed (merge poseidon)

variable (poseidon keccak verify secp) in
/-- The cached blocks do no harm: each of them is benign, and the next one is not the
only one that is cached if it is going to be dropped. -/
structure Unharmed (node : NodeShared Key S) : Prop where
  benign : ∀ block, node.blockCache.Waits block → node.Benign secp block
  spared : ∀ block error, node.blockCache.getNextCommitBlock = some block →
    node.validateBlock poseidon keccak verify secp block = .error (.error error) →
      ∃ height ∈ node.blockCache.blockHashHeights, height ≠ node.blockCache.height + 1

theorem waits_of_next (nextBlock : node.blockCache.getNextCommitBlock = some block) :
    node.blockCache.Waits block :=
  ⟨_, Nat.lt_succ_self _, nextBlock⟩

theorem Intact.returns_validate (intact : node.Intact poseidon keccak)
    (unharmed : node.Unharmed poseidon keccak verify secp)
    (nextBlock : node.blockCache.getNextCommitBlock = some block) :
    Returns (node.validateBlock poseidon keccak verify secp block) := by
  apply returns_validateBlock intact.wellFormed
  intro good
  have benign := unharmed.benign block (waits_of_next nextBlock)
  rwa [Benign, if_neg good] at benign

/-- The tree has the inputs of the next block once it is validated. -/
theorem Unharmed.present (unharmed : node.Unharmed poseidon keccak verify secp)
    (nextBlock : node.blockCache.getNextCommitBlock = some block)
    (validated : node.validateBlock poseidon keccak verify secp block = .ok ()) :
    ∀ leaf ∈ block.content.state.removeLeaves, leaf ∈ node.chain.notesTree.tree.entries := by
  intro leaf mem
  by_cases bad : node.badBlocks.contains block.content.header.height = true
  · have benign := unharmed.benign block (waits_of_next nextBlock)
    rw [Benign, if_pos bad] at benign
    exact (benign leaf mem).1
  · exact ((validateBlock_eq_ok bad validated).2.removeLeaf_valid mem).2

/-- Dropping the next block leaves another one. -/
theorem Intact.drop {error : Error} (intact : node.Intact poseidon keccak)
    (unharmed : node.Unharmed poseidon keccak verify secp)
    (nextBlock : node.blockCache.getNextCommitBlock = some block)
    (refused : node.validateBlock poseidon keccak verify secp block = .error (.error error)) :
    Intact poseidon keccak
      { node with blockCache := node.blockCache.remove (block.hash keccak) } where
  labelled := intact.labelled.of_within (BlockCache.within_remove _ _)
  occupied := by
    rcases unharmed.spared block error nextBlock refused with ⟨height, mem, differ⟩
    rcases BlockCache.getNextCommitBlock_eq_some_iff.mp nextBlock with ⟨hash, entry, isBlock⟩
    have kept := BlockCache.heights_remove intact.labelled entry differ.symm
    rw [Std.TreeMap.getElem?_eq_some_getElem mem] at kept
    rw [intact.labelled.hashed isBlock]
    exact BlockCache.occupied_of_entry kept
  wellFormed := intact.wellFormed

/-- Confirming the next block keeps it. -/
theorem Intact.confirm (intact : node.Intact poseidon keccak)
    (nextBlock : node.blockCache.getNextCommitBlock = some block) :
    Intact poseidon keccak
      { node with blockCache := node.blockCache.confirm block.content.header.height } where
  labelled := intact.labelled.of_within (BlockCache.within_confirm _ _)
  occupied := BlockCache.occupied_confirm_next intact.labelled nextBlock
  wellFormed := intact.wellFormed

theorem Intact.commit {next : NodeShared Key S} {commitTime : Nat} {result : Result Unit}
    (intact : node.Intact poseidon keccak)
    (committed : node.commitProposal poseidon keccak tempNoir block commitTime =
      (next, result)) : next.Intact poseidon keccak := by
  have cache := (commitProposal_frame committed).2
  refine ⟨cache ▸ intact.labelled, cache ▸ intact.occupied, ?_⟩
  cases result with
  | ok done =>
      rcases Chain.commitProposal_eq_ok_iff.mp (chain_of_commitProposal committed) with
        ⟨_, _, applied⟩
      exact wellFormed_of_applyBlockToTree intact.wellFormed applied
  | error stop => exact notesTree_of_commitProposal committed ▸ intact.wellFormed

/-- A block is as legible to a node of the same configuration. -/
theorem Legible.of_sameConfig {next : NodeShared Key S} (config : SameConfig node next)
    (legible : node.Legible secp block) : next.Legible secp block where
  validators := by
    rcases legible.validators with ⟨validators, read⟩
    refine ⟨validators, ?_⟩
    rw [validatorsForHeight, config.signerAddress, config.validatorSets]
    exact read
  signature := legible.signature
  slots := legible.slots

/-- A committed block does no harm to those after it. -/
theorem Unharmed.commit {next : NodeShared Key S} {commitTime : Nat}
    (unharmed : node.Unharmed poseidon keccak verify secp) (intact : node.Intact poseidon keccak)
    (nextBlock : node.blockCache.getNextCommitBlock = some block)
    (committed : commitProposal poseidon keccak tempNoir
      { node with blockCache := node.blockCache.confirm block.content.header.height }
      block commitTime = (next, .ok ())) : next.Unharmed poseidon keccak verify secp := by
  rcases commitProposal_frame committed with ⟨confirmedConfig, cache⟩
  have config : SameConfig node next := ⟨confirmedConfig.mode, confirmedConfig.signerAddress,
    confirmedConfig.validatorSets, confirmedConfig.badBlocks⟩
  rcases Chain.commitProposal_eq_ok_iff.mp (chain_of_commitProposal committed) with
    ⟨_, _, applied⟩
  have height := intact.labelled.height_eq nextBlock
  have waits : ∀ other, next.blockCache.Waits other → node.blockCache.Waits other ∧
      block.content.header.height < other.content.header.height := by
    rintro other ⟨wanted, above, found⟩
    rw [cache, BlockCache.height_confirm] at above
    rw [cache] at found
    have before := BlockCache.getByHeight_of_within (BlockCache.within_confirm _ _) found
    have below : node.blockCache.height < block.content.header.height :=
      height ▸ Nat.lt_succ_self _
    refine ⟨⟨wanted, below.trans above, before⟩, ?_⟩
    rwa [intact.labelled.height_eq before]
  constructor
  · intro other waiting
    rcases waits other waiting with ⟨waited, above⟩
    have benign := unharmed.benign other waited
    unfold Benign at benign ⊢
    rw [config.badBlocks]
    split_ifs at benign ⊢ with bad
    · intro leaf mem
      rcases benign leaf mem with ⟨present, unspent⟩
      have kept := unspent block (waits_of_next nextBlock) above
      refine ⟨(mem_of_applyBlockToTree applied leaf).mpr ⟨kept, .inr present⟩, ?_⟩
      intro earlier earlierWaits isEarlier
      exact unspent earlier (waits earlier earlierWaits).1 isEarlier
    · exact benign.of_sameConfig config
  · intro other error _ _
    rcases BlockCache.getNextCommitBlock_eq_some_iff.mp nextBlock with ⟨hash, entry, _⟩
    refine ⟨block.content.header.height, ?_, ?_⟩
    · have kept := BlockCache.heights_confirm node.blockCache block.content.header.height
        block.content.header.height
      rw [if_neg (lt_irrefl _), height, entry] at kept
      rw [cache, height]
      exact (Std.TreeMap.getElem?_eq_some_iff.mp kept).fst
    · rw [cache, BlockCache.height_confirm]
      exact (Nat.succ_ne_self _).symm

variable (tempNoir) in
/-- The loop returns and leaves the node intact. -/
theorem returns_commitCached (commitTime rounds : Nat) (intact : node.Intact poseidon keccak)
    (unharmed : node.Unharmed poseidon keccak verify secp) :
    Returns (commitCached poseidon keccak verify secp tempNoir commitTime rounds node).2 ∧
      (commitCached poseidon keccak verify secp tempNoir commitTime rounds node).1.Intact poseidon
        keccak := by
  induction rounds generalizing node with
  | zero => exact ⟨returns_ok _, intact⟩
  | succ rounds ih =>
      unfold commitCached
      cases nextBlock : node.blockCache.getNextCommitBlock with
      | none => exact ⟨returns_ok _, intact⟩
      | some block =>
          dsimp only
          have returns := intact.returns_validate unharmed nextBlock
          cases validated : node.validateBlock poseidon keccak verify secp block with
          | error stop =>
              cases stop with
              | panic message => exact absurd validated (returns message)
              | error error =>
                  -- nothing comes after a dropped block
                  have gone : BlockCache.getNextCommitBlock
                      (NodeShared.blockCache { node with
                        blockCache := node.blockCache.remove (block.hash keccak) }) = none :=
                    BlockCache.next_remove intact.labelled nextBlock
                  dsimp only
                  rw [(commitCached_done rounds gone).1]
                  exact ⟨returns_ok _, intact.drop unharmed nextBlock validated⟩
          | ok done =>
              dsimp only
              have commits : Returns (commitProposal poseidon keccak tempNoir
                  { node with
                    blockCache := node.blockCache.confirm block.content.header.height }
                  block commitTime).2 :=
                returns_commitProposal commitTime (intact.confirm nextBlock).wellFormed
                  (unharmed.present nextBlock validated)
              cases committed : commitProposal poseidon keccak tempNoir
                  { node with
                    blockCache := node.blockCache.confirm block.content.header.height }
                  block commitTime with
              | mk middle result =>
                  have after := (intact.confirm nextBlock).commit committed
                  rw [committed] at commits
                  cases result with
                  | ok done => exact ih after (unharmed.commit intact nextBlock committed)
                  | error stop =>
                      cases stop with
                      | error error => exact ⟨returns_ok _, after⟩
                      | panic message => exact absurd rfl (commits message)

/-- The loop is over after as many rounds as there are blocks to come. -/
theorem commitCached_eq_of_enough {commitTime first second : Nat}
    (labelled : node.blockCache.Labelled keccak)
    (firstEnough : node.blockCache.ahead.card < first)
    (secondEnough : node.blockCache.ahead.card < second) :
    commitCached poseidon keccak verify secp tempNoir commitTime first node =
      commitCached poseidon keccak verify secp tempNoir commitTime second node := by
  induction first generalizing second node with
  | zero => exact absurd firstEnough (Nat.not_lt_zero _)
  | succ first ih =>
      rcases Nat.exists_eq_succ_of_ne_zero (Nat.ne_zero_of_lt secondEnough) with ⟨second, rfl⟩
      rw [commitCached, commitCached]
      cases nextBlock : node.blockCache.getNextCommitBlock with
      | none => rfl
      | some block =>
          have fewer : ∀ smaller : BlockCache, smaller.Within node.blockCache →
              node.blockCache.height ≤ smaller.height →
              (smaller.blocks[block.hash keccak]? = none ∨
                block.content.header.height ≤ smaller.height) →
              smaller.ahead.card < first ∧ smaller.ahead.card < second := by
            intro smaller within notBelow gone
            have less := BlockCache.card_ahead_lt labelled nextBlock within notBelow gone
            exact ⟨Nat.lt_of_lt_of_le less (Nat.le_of_lt_succ firstEnough),
              Nat.lt_of_lt_of_le less (Nat.le_of_lt_succ secondEnough)⟩
          dsimp only
          cases node.validateBlock poseidon keccak verify secp block with
          | error stop =>
              cases stop with
              | panic message => rfl
              | error error =>
                  have within := BlockCache.within_remove node.blockCache (block.hash keccak)
                  have less := fewer _ within (BlockCache.height_remove _ _).ge
                    (.inl (by rw [BlockCache.blocks_remove, if_pos rfl]))
                  exact ih (labelled.of_within within) less.1 less.2
          | ok done =>
              dsimp only
              cases committed : commitProposal poseidon keccak tempNoir
                  { node with
                    blockCache := node.blockCache.confirm block.content.header.height }
                  block commitTime with
              | mk middle result =>
                  cases result with
                  | error stop => cases stop <;> rfl
                  | ok done =>
                      have cache := (commitProposal_frame committed).2
                      have within := BlockCache.within_confirm node.blockCache
                        block.content.header.height
                      have height := labelled.height_eq nextBlock
                      have less := fewer _ within
                        (by rw [BlockCache.height_confirm, height]; exact Nat.le_succ _)
                        (.inr (BlockCache.height_confirm _ _).ge)
                      dsimp only at cache ⊢
                      apply ih
                      · exact cache ▸ labelled.of_within within
                      · exact cache ▸ less.1
                      · exact cache ▸ less.2

end NodeShared

end Ciphera.Node
