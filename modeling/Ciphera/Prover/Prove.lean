import Ciphera.Node.Block
import Ciphera.Noir.Ledger
import Ciphera.Prover.Aggregate
import Ciphera.Smirk.Path
import Ciphera.Zk.MerklePath

/-!
# Paths for the aggregation circuit

The prover works through the transactions of a block on a copy of the notes tree:
it takes the path of each input and then removes it, and inserts each output and
then takes its path.  The circuit replays the same changes from the paths alone,
with a running root.

A group of three transactions that all count as padding is not aggregated, and
the tree is not touched for it.
-/

namespace Ciphera.Prover

open Ciphera.Lib Ciphera.Lib.Merkle Ciphera.Noir Ciphera.Smirk Ciphera.Zk
open Ciphera.Node (MERKLE_TREE_DEPTH SmirkMetadata)

/-- The length of the paths in the tree of notes. -/
def MERKLE_TREE_PATH_DEPTH : Nat := 160

/-- The notes tree in memory. -/
abbrev NotesTree := CachedTree MERKLE_TREE_DEPTH SmirkMetadata SimpleHashCache

/-- What the prover comes to, with its errors and panics. -/
abbrev Result := Except (Stop CollisionError)

/-- The siblings handed to the circuit. -/
structure MerklePath where
  siblings : List Element
  deriving DecidableEq, Repr

namespace MerklePath

/-- `MerklePath::default`. -/
def padding : MerklePath := ⟨List.replicate (MERKLE_TREE_DEPTH - 1) Element.ZERO⟩

/-- A path of the length that the circuit asks for. -/
def new (siblings : List Element) : Result MerklePath := do
  check (MERKLE_TREE_DEPTH - 1 = siblings.length) (.panic "Merkle path invalid size")
  pure ⟨siblings⟩

/-- The siblings in the field. -/
def words (merklePath : MerklePath) : Vector Base 160 :=
  Vector.ofFn fun level => (merklePath.siblings[level.val]?.getD Element.ZERO).toBase

/-- A path of the prover is one for the depth of the notes tree. -/
theorem new_eq_ok_iff (build : Build) {siblings : List Element} {path : MerklePath} :
    new siblings = .ok path ↔
      Zk.MerklePath.new build siblings =
        .ok (⟨path.siblings⟩ : Zk.MerklePath MERKLE_TREE_DEPTH) := by
  rw [new, Zk.MerklePath.new, Zk.MerklePath.sub_one_eq (by decide), ok_bind]
  rcases path with ⟨held⟩
  simp

theorem default_eq_padding (build : Build) :
    Zk.MerklePath.default build =
      .ok (⟨padding.siblings⟩ : Zk.MerklePath MERKLE_TREE_DEPTH) :=
  Zk.MerklePath.default_eq (by decide)

end MerklePath

/-- The part of a path that the circuit reads. -/
def pathToMerklePath (path : Path) : Result MerklePath :=
  MerklePath.new (path.siblings.take MERKLE_TREE_PATH_DEPTH)

/-- `UtxoProofBundleWithMerkleProofs`. -/
structure Bundle where
  utxoProof : UtxoProof
  inputMerklePaths : Vector MerklePath 2
  outputMerklePaths : Vector MerklePath 2

/-- The proof that fills a free place of an aggregation. -/
def Bundle.padding : Bundle :=
  ⟨paddingProof, Vector.replicate 2 .padding, Vector.replicate 2 .padding⟩

/-- The proofs of one aggregation, between two roots. -/
structure AggUtxo where
  proofs : List Bundle
  oldRoot : Element
  newRoot : Element

/-- The roots among the public inputs of an aggregation.  Without a proof they are
zero. -/
structure AggUtxoPublicInput where
  oldRoot : Element := Element.ZERO
  newRoot : Element := Element.ZERO
  deriving DecidableEq, Repr

/-- A free place has the root zero. -/
def AggUtxoPublicInput.isPadding (inputs : AggUtxoPublicInput) : Bool :=
  inputs.oldRoot = Element.ZERO

/-- The public inputs of a proof are read back from the field. -/
def publicInputs : Option AggUtxo → AggUtxoPublicInput
  | none => {}
  | some aggregation =>
      ⟨.fromBase aggregation.oldRoot.toBase, .fromBase aggregation.newRoot.toBase⟩

/-- `AggAgg::new_root`. -/
def newRoot (first second : AggUtxoPublicInput) : Element :=
  if second.isPadding then first.newRoot else second.newRoot

section

variable (poseidon : Poseidon) (tempNoir : Bool)

/-- One input commitment: its path, and the tree without it. -/
def recordInput (tree : NotesTree) (leaf : Element) : Result (NotesTree × MerklePath) :=
  if leaf = Element.ZERO then pure (tree, .padding)
  else do
    let path ← tree.tree.pathFor (Node.merge poseidon) leaf
    let merklePath ← pathToMerklePath path
    let tree ← tree.remove (Node.merge poseidon) (SimpleHashCache.hash (Node.merge poseidon))
      tempNoir leaf
    pure (tree, merklePath)

/-- One output commitment: the tree with it, and its path there. -/
def recordOutput (currentBlock : Nat) (tree : NotesTree) (leaf : Element) :
    Result (NotesTree × MerklePath) :=
  if leaf = Element.ZERO then pure (tree, .padding)
  else do
    let tree ← tree.insert (Node.merge poseidon) (SimpleHashCache.hash (Node.merge poseidon))
      tempNoir leaf ⟨currentBlock⟩
    let path ← tree.tree.pathFor (Node.merge poseidon) leaf
    let merklePath ← pathToMerklePath path
    pure (tree, merklePath)

/-- The four paths of a transaction, as a bundle. -/
def recordTxn (currentBlock : Nat) (tree : NotesTree) (txn : UtxoProof) :
    Result (NotesTree × Bundle) := do
  let inputs := txn.publicInputs.inputCommitments
  let outputs := txn.publicInputs.outputCommitments
  let (tree, input0) ← recordInput poseidon tempNoir tree (inputs.get 0)
  let (tree, input1) ← recordInput poseidon tempNoir tree (inputs.get 1)
  let (tree, output0) ← recordOutput poseidon tempNoir currentBlock tree (outputs.get 0)
  let (tree, output1) ← recordOutput poseidon tempNoir currentBlock tree (outputs.get 1)
  pure (tree, ⟨txn, #v[input0, input1], #v[output0, output1]⟩)

/-- The paths of a group.  The source keeps them in one array and takes four for
each transaction. -/
def genMerklePaths (currentBlock : Nat) :
    NotesTree → List UtxoProof → Result (NotesTree × List Bundle)
  | tree, [] => pure (tree, [])
  | tree, txn :: txns => do
      let (tree, bundle) ← recordTxn poseidon tempNoir currentBlock tree txn
      let (tree, bundles) ← genMerklePaths currentBlock tree txns
      pure (tree, bundle :: bundles)

/-- Padding is aggregated without its commitments, whatever they are. -/
def Bundle.forCircuit (bundle : Bundle) : Bundle :=
  if isPadding bundle.utxoProof then .padding else bundle

/-- `aggregate_utxo` up to the proof itself. -/
def aggregateUtxo (currentBlock : Nat) (tree : NotesTree) (utxos : List UtxoProof) :
    Result (NotesTree × Option AggUtxo) :=
  if utxos.all isPadding then pure (tree, none)
  else do
    let (changed, bundles) ← genMerklePaths poseidon tempNoir currentBlock tree utxos
    pure (changed, some ⟨bundles.map Bundle.forCircuit, tree.tree.rootHash (Node.merge poseidon),
      changed.tree.rootHash (Node.merge poseidon)⟩)

/-- `generate_aggregate_proof` up to the proofs themselves.  The worker unwraps the
conversion of the transactions into an array of six. -/
def generateAggregateProof (currentBlock : Nat) (tree : NotesTree) (txns : List UtxoProof) :
    Result (Option AggUtxo × Option AggUtxo) := do
  check ((padded txns).length = MAXIMUM_TXNS)
    (.panic "called `Result::unwrap()` on an `Err` value")
  let (tree, first) ←
    aggregateUtxo poseidon tempNoir currentBlock tree ((padded txns).take UTXO_AGG_NUMBER)
  let (_, second) ←
    aggregateUtxo poseidon tempNoir currentBlock tree ((padded txns).drop UTXO_AGG_NUMBER)
  pure (first, second)

end

variable (proofFields : UtxoProof → Vector Base 508)

/-- The arguments of the circuit for a bundle; `proofFields` are the words of the
proof itself. -/
def Bundle.input (bundle : Bundle) : AggUtxo.AggUtxoProofInput :=
  proofInput (fun utxo => ⟨proofFields utxo, bundle.inputMerklePaths.map MerklePath.words,
    bundle.outputMerklePaths.map MerklePath.words⟩) bundle.utxoProof

/-- The root that the circuit computes from the old one and the paths. -/
def replay (poseidon : Poseidon) (root : Base) (bundles : List Bundle) : Circuit Base :=
  (bundles.map (Bundle.input proofFields)).foldlM (AggUtxo.applyCommitments poseidon) root

/-- The circuit replays the aggregation from its old root to its new root. -/
def AggUtxo.Replays (poseidon : Poseidon) (aggregation : AggUtxo) : Prop :=
  replay proofFields poseidon aggregation.oldRoot.toBase aggregation.proofs =
    .ok aggregation.newRoot.toBase

/-! ## Following the tree with a running root -/

/-- A step of the circuit follows a change of the tree: it takes the root before
the change and no other to the root after it, and leaves every root alone if
there is no change. -/
structure Tracks (step : Base → Circuit Base) (before after : Base) (touches : Prop) : Prop where
  touched : touches → ∀ {root next}, step root = .ok next ↔ root = before ∧ next = after
  untouched : ¬touches → after = before ∧ ∀ root, step root = .ok root

theorem Tracks.apply {step : Base → Circuit Base} {before after : Base} {touches : Prop}
    (tracks : Tracks step before after touches) : step before = .ok after := by
  by_cases touched : touches
  · exact (tracks.touched touched).mpr ⟨rfl, rfl⟩
  · rcases tracks.untouched touched with ⟨same, stays⟩
    rw [same]
    exact stays before

theorem Tracks.bind {first second : Base → Circuit Base} {before middle after : Base}
    {touches touchesNext : Prop} (tracks : Tracks first before middle touches)
    (tracksNext : Tracks second middle after touchesNext) :
    Tracks (fun root => first root >>= second) before after (touches ∨ touchesNext) where
  touched := by
    intro either root next
    rw [bind_eq_ok_iff]
    by_cases touched : touches
    · constructor
      · rintro ⟨value, firstStep, secondStep⟩
        rcases (tracks.touched touched).mp firstStep with ⟨rfl, rfl⟩
        rw [tracksNext.apply] at secondStep
        exact ⟨rfl, (Except.ok.inj secondStep).symm⟩
      · rintro ⟨rfl, rfl⟩
        exact ⟨middle, tracks.apply, tracksNext.apply⟩
    · rcases tracks.untouched touched with ⟨rfl, stays⟩
      have touchedNext := either.resolve_left touched
      constructor
      · rintro ⟨value, firstStep, secondStep⟩
        rw [stays] at firstStep
        obtain rfl := Except.ok.inj firstStep
        exact (tracksNext.touched touchedNext).mp secondStep
      · intro reaches
        exact ⟨root, stays root, (tracksNext.touched touchedNext).mpr reaches⟩
  untouched := by
    intro neither
    rw [not_or] at neither
    rcases tracks.untouched neither.1 with ⟨rfl, stays⟩
    rcases tracksNext.untouched neither.2 with ⟨rfl, staysNext⟩
    refine ⟨rfl, ?_⟩
    intro root
    rw [stays, ok_bind, staysNext]

/-- The changes can be made one after the other, and the circuit reads their
elements as they are. -/
structure Ready (leaves : Nat → Element) (changes : List (Smirk.Change × Element)) : Prop where
  distinct : DistinctSlots changeKey (MERKLE_TREE_DEPTH - 1) changes
  applicable : Applicable (MERKLE_TREE_DEPTH - 1) changes leaves
  canonical : ∀ change ∈ changes, change.2.toNat < modulus

/-- The leaves after some changes. -/
abbrev changed (changes : List (Smirk.Change × Element)) (leaves : Nat → Element) : Nat → Element :=
  applyChanges (MERKLE_TREE_DEPTH - 1) changes leaves

theorem Ready.left {leaves : Nat → Element} {first second : List (Smirk.Change × Element)}
    (ready : Ready leaves (first ++ second)) : Ready leaves first where
  distinct := (List.pairwise_append.mp ready.distinct).1
  applicable change mem := ready.applicable change (List.mem_append_left _ mem)
  canonical change mem := ready.canonical change (List.mem_append_left _ mem)

theorem Ready.right {leaves : Nat → Element} {first second : List (Smirk.Change × Element)}
    (ready : Ready leaves (first ++ second)) : Ready (changed first leaves) second where
  distinct := (List.pairwise_append.mp ready.distinct).2.1
  applicable := by
    intro change mem
    have apart : ∀ other ∈ first, changeKey other % 2 ^ (MERKLE_TREE_DEPTH - 1) ≠
        change.2.slot (MERKLE_TREE_DEPTH - 1) := by
      intro other otherMem
      exact (List.pairwise_append.mp ready.distinct).2.2 other otherMem change mem
    rw [changed, applyChanges, writeAll_of_notMem _ apart]
    exact ready.applicable change (List.mem_append_right _ mem)
  canonical change mem := ready.canonical change (List.mem_append_right _ mem)

/-- The later changes can also be made without the earlier ones. -/
theorem Ready.skip {leaves : Nat → Element} {first second : List (Smirk.Change × Element)}
    (ready : Ready leaves (first ++ second)) : Ready leaves second where
  distinct := (List.pairwise_append.mp ready.distinct).2.1
  applicable change mem := ready.applicable change (List.mem_append_right _ mem)
  canonical change mem := ready.canonical change (List.mem_append_right _ mem)

/-- A change that can be made has an effect. -/
theorem Ready.changed_ne {leaves : Nat → Element} {changes : List (Smirk.Change × Element)}
    (ready : Ready leaves changes) {change : Smirk.Change × Element} (mem : change ∈ changes) :
    changed changes leaves (change.2.slot (MERKLE_TREE_DEPTH - 1)) ≠
      leaves (change.2.slot (MERKLE_TREE_DEPTH - 1)) := by
  rcases change with ⟨kind, leaf⟩
  have written : changed changes leaves (leaf.slot (MERKLE_TREE_DEPTH - 1)) =
      changeEffect (kind, leaf) (leaves (leaf.slot (MERKLE_TREE_DEPTH - 1))) :=
    writeAll_of_mem leaves ready.distinct mem
  rcases ready.applicable _ mem with ⟨nonzero, found⟩
  rw [written]
  cases kind with
  | insert =>
      dsimp only at nonzero found
      rw [found]
      exact nonzero
  | remove =>
      dsimp only at nonzero found
      rw [found, changeEffect, if_pos rfl]
      exact nonzero.symm

theorem Ready.changed_append {leaves : Nat → Element}
    {first second : List (Smirk.Change × Element)} (ready : Ready leaves (first ++ second)) :
    changed (first ++ second) leaves = changed second (changed first leaves) :=
  writeAll_append leaves ready.distinct

section

variable {poseidon : Poseidon} {tempNoir : Bool}

variable (poseidon) in
/-- The root of the notes tree over some leaves, in the field. -/
def rootOf (leaves : Nat → Element) : Base :=
  (root (Node.merge poseidon) (MERKLE_TREE_DEPTH - 1) leaves).toBase

/-- Hashing two nodes is hashing their residues. -/
@[simp]
theorem toBase_merge (left right : Element) :
    (Node.merge poseidon left right).toBase =
      AggUtxo.merge poseidon left.toBase right.toBase := by
  rw [Node.merge, hashMerge, Element.toBase_fromBase]
  rfl

/-- The circuit climbs the siblings as the tree does. -/
theorem getMerkleRoot_words {siblings : List Element} {bits : Vector Bool 254} {key : Nat}
    (length : siblings.length = 160)
    (sides : ∀ level (levelLt : level < 160), bits[level] = key.testBit level) (value : Element) :
    AggUtxo.getMerkleRoot poseidon value.toBase bits (MerklePath.mk siblings).words =
      (climb (Node.merge poseidon) value key.testBit
        (fun level => siblings[level]?.getD Element.ZERO) 160).toBase := by
  have words : (fun level : Nat => (MerklePath.mk siblings).words[level]?.getD 0) =
      fun level => (siblings[level]?.getD Element.ZERO).toBase := by
    funext level
    by_cases levelLt : level < 160
    · simp [MerklePath.words, levelLt]
    · have outside : siblings[level]? = none :=
        List.getElem?_eq_none (length.le.trans (Nat.le_of_not_lt levelLt))
      have noWord : (MerklePath.mk siblings).words[level]? = none := by
        simpa using levelLt
      rw [outside, noWord]
      rfl
  rw [AggUtxo.getMerkleRoot_of_bits _ _ sides, words]
  exact (map_climb _ toBase_merge _ _ _ _).symm

/-- The path of a leaf as the circuit reads it. -/
theorem exists_merklePath {tree : NotesTree}
    (wellFormed : tree.tree.WellFormed (Node.merge poseidon)) {leaf : Element}
    (canonical : leaf.toNat < modulus) :
    ∃ (path : Path) (merklePath : MerklePath),
      tree.tree.pathFor (Node.merge poseidon) leaf = (.ok path : Result Path) ∧
        pathToMerklePath path = .ok merklePath ∧
        ∀ value : Element,
          AggUtxo.getMerkleRoot poseidon value.toBase (toLeBits leaf.toBase) merklePath.words =
            rootOf poseidon (Function.update tree.tree.leaves
              (leaf.slot (MERKLE_TREE_DEPTH - 1)) value) := by
  obtain ⟨path, found⟩ : ∃ path : Path,
      tree.tree.pathFor (Node.merge poseidon) leaf = (.ok path : Result Path) :=
    ⟨_, wellFormed.pathFor_eq (by decide) leaf⟩
  have isPath := Zk.MerklePath.isPathOf_of_pathFor wellFormed (by decide) found
  have length : path.siblings.length = MERKLE_TREE_DEPTH - 1 := isPath.length_eq
  refine ⟨path, ⟨path.siblings⟩, found, ?_, ?_⟩
  · have whole : path.siblings.take MERKLE_TREE_PATH_DEPTH = path.siblings :=
      List.take_of_length_le length.le
    rw [pathToMerklePath, whole, MerklePath.new_eq_ok_iff .release]
    exact Zk.MerklePath.new_of_length (by decide) length
  · intro value
    have sides : ∀ level (levelLt : level < 160),
        (toLeBits leaf.toBase)[level] = leaf.toNat.testBit level := by
      intro level levelLt
      simp [toLeBits, Nat.mod_eq_of_lt canonical]
    have climbs := isPath.computeMerkleRoot_eq value
    rw [computeMerkleRoot_eq_climb, length] at climbs
    rw [getMerkleRoot_words length sides]
    exact congrArg Element.toBase climbs

/-- The change of one commitment, none for padding. -/
def changeOf (kind : Smirk.Change) (leaf : Element) : List (Smirk.Change × Element) :=
  if leaf = Element.ZERO then [] else [(kind, leaf)]

variable (poseidon) in
/-- The changes lead to a sound tree again, and a step of the circuit follows
them. -/
structure Records (tree : NotesTree) (changes : List (Smirk.Change × Element))
    (step : Base → Circuit Base) (next : NotesTree) : Prop where
  sound : next.Sound (Node.merge poseidon) (SimpleHashCache.hash (Node.merge poseidon))
  leaves : next.tree.leaves = changed changes tree.tree.leaves
  tracks : Tracks step (rootOf poseidon tree.tree.leaves) (rootOf poseidon next.tree.leaves)
    (changes ≠ [])

theorem toBase_ne_zero {leaf : Element} (canonical : leaf.toNat < modulus)
    (nonzero : leaf ≠ Element.ZERO) : leaf.toBase ≠ 0 := by
  intro zero
  apply nonzero
  rw [← Element.fromBase_toBase canonical, zero]
  rfl

variable (tempNoir) in
theorem exists_recordInput {tree : NotesTree} {leaf : Element}
    (sound : tree.Sound (Node.merge poseidon) (SimpleHashCache.hash (Node.merge poseidon)))
    (ready : Ready tree.tree.leaves (changeOf .remove leaf)) :
    ∃ next merklePath, recordInput poseidon tempNoir tree leaf = .ok (next, merklePath) ∧
      Records poseidon tree (changeOf .remove leaf)
        (fun root => AggUtxo.removeInput poseidon root leaf.toBase merklePath.words) next := by
  unfold changeOf at ready ⊢
  unfold recordInput
  split_ifs at ready ⊢ with zero
  · subst zero
    refine ⟨tree, .padding, rfl, sound, rfl, ?_, ?_⟩
    · intro touched
      exact absurd rfl touched
    · intro _
      exact ⟨rfl, fun root => if_neg fun nonzero => nonzero rfl⟩
  · have canonical := ready.canonical _ List.mem_cons_self
    have present := (ready.applicable _ List.mem_cons_self).2
    dsimp only at canonical present
    rcases exists_merklePath sound.wellFormed canonical with ⟨path, merklePath, found, taken, climbs⟩
    rcases sound.exists_remove (by decide) (by decide) tempNoir ready.applicable with
      ⟨next, removed, nextSound, leaves⟩
    have included := climbs leaf
    have vacated := climbs Element.ZERO
    have same : Function.update tree.tree.leaves (leaf.slot (MERKLE_TREE_DEPTH - 1)) leaf =
        tree.tree.leaves := Function.update_eq_self_iff.mpr present.symm
    rw [same] at included
    have leavesEq : Function.update tree.tree.leaves (leaf.slot (MERKLE_TREE_DEPTH - 1))
        Element.ZERO = next.tree.leaves := by
      rw [leaves, applyChanges, writeAll_singleton]
      simp only [changeKey_mod, changeEffect, present, if_true]
    rw [leavesEq] at vacated
    have cleared : AggUtxo.getNullRoot poseidon (toLeBits leaf.toBase) merklePath.words =
        rootOf poseidon next.tree.leaves := vacated
    refine ⟨next, merklePath, ?_, nextSound, leaves, ?_, ?_⟩
    · rw [found, ok_bind, taken, ok_bind, removed]
      rfl
    · intro _ root after
      rw [AggUtxo.removeInput, if_pos (toBase_ne_zero canonical zero), bind_eq_ok_iff]
      simp only [AggUtxo.validateInclusion, check_eq_ok_iff, pure_eq_ok_iff, included, cleared]
      constructor
      · rintro ⟨_, rfl, rfl⟩
        exact ⟨rfl, rfl⟩
      · rintro ⟨rfl, rfl⟩
        exact ⟨(), rfl, rfl⟩
    · intro untouched
      exact absurd (List.cons_ne_nil _ _) untouched

variable (tempNoir) in
theorem exists_recordOutput (currentBlock : Nat) {tree : NotesTree} {leaf : Element}
    (sound : tree.Sound (Node.merge poseidon) (SimpleHashCache.hash (Node.merge poseidon)))
    (ready : Ready tree.tree.leaves (changeOf .insert leaf)) :
    ∃ next merklePath,
      recordOutput poseidon tempNoir currentBlock tree leaf = .ok (next, merklePath) ∧
        Records poseidon tree (changeOf .insert leaf)
          (fun root => AggUtxo.insertOutput poseidon root leaf.toBase merklePath.words) next := by
  unfold changeOf at ready ⊢
  unfold recordOutput
  split_ifs at ready ⊢ with zero
  · subst zero
    refine ⟨tree, .padding, rfl, sound, rfl, ?_, ?_⟩
    · intro touched
      exact absurd rfl touched
    · intro _
      exact ⟨rfl, fun root => if_neg fun nonzero => nonzero rfl⟩
  · have canonical := ready.canonical _ List.mem_cons_self
    have vacant := (ready.applicable _ List.mem_cons_self).2
    dsimp only at canonical vacant
    rcases sound.exists_insert ⟨currentBlock⟩ (by decide) (by decide) tempNoir ready.applicable with
      ⟨next, inserted, nextSound, leaves⟩
    rcases exists_merklePath nextSound.wellFormed canonical with
      ⟨path, merklePath, found, taken, climbs⟩
    have leavesEq : next.tree.leaves = Function.update tree.tree.leaves
        (leaf.slot (MERKLE_TREE_DEPTH - 1)) leaf := by
      rw [leaves, applyChanges, writeAll_singleton]
      rfl
    have filled := climbs leaf
    have vacated := climbs Element.ZERO
    rw [leavesEq, Function.update_idem, ← leavesEq] at filled
    have same : Function.update tree.tree.leaves (leaf.slot (MERKLE_TREE_DEPTH - 1))
        Element.ZERO = tree.tree.leaves := Function.update_eq_self_iff.mpr vacant.symm
    rw [leavesEq, Function.update_idem, same] at vacated
    have cleared : AggUtxo.getNullRoot poseidon (toLeBits leaf.toBase) merklePath.words =
        rootOf poseidon tree.tree.leaves := vacated
    refine ⟨next, merklePath, ?_, nextSound, leaves, ?_, ?_⟩
    · rw [inserted, ok_bind, found, ok_bind, taken]
      rfl
    · intro _ root after
      rw [AggUtxo.insertOutput, if_pos (toBase_ne_zero canonical zero), bind_eq_ok_iff]
      simp only [AggUtxo.validateNull, check_eq_ok_iff, pure_eq_ok_iff, filled, cleared]
      constructor
      · rintro ⟨_, rfl, rfl⟩
        exact ⟨rfl, rfl⟩
      · rintro ⟨rfl, rfl⟩
        exact ⟨(), rfl, rfl⟩
    · intro untouched
      exact absurd (List.cons_ne_nil _ _) untouched

theorem Records.bind {tree middle next : NotesTree}
    {first second : List (Smirk.Change × Element)} {step stepNext : Base → Circuit Base}
    (ready : Ready tree.tree.leaves (first ++ second)) (records : Records poseidon tree first step middle)
    (recordsNext : Records poseidon middle second stepNext next) :
    Records poseidon tree (first ++ second) (fun root => step root >>= stepNext) next where
  sound := recordsNext.sound
  leaves := by rw [ready.changed_append, recordsNext.leaves, records.leaves]
  tracks := by
    have touches : (first ++ second ≠ []) = (first ≠ [] ∨ second ≠ []) := by
      rw [ne_eq, List.append_eq_nil_iff, not_and_or]
    rw [touches]
    exact records.tracks.bind recordsNext.tracks

/-- The changes of a transaction in the order of the circuit. -/
def txnChanges (txn : UtxoProof) : List (Smirk.Change × Element) :=
  changeOf .remove (txn.publicInputs.inputCommitments.get 0) ++
    changeOf .remove (txn.publicInputs.inputCommitments.get 1) ++
      changeOf .insert (txn.publicInputs.outputCommitments.get 0) ++
        changeOf .insert (txn.publicInputs.outputCommitments.get 1)

variable (poseidon) in
/-- The four changes of a transaction in the circuit. -/
def applyPaths (proof : AggUtxo.AggUtxoProofInput) (root : Base) : Circuit Base := do
  let root ← AggUtxo.removeInput poseidon root (proof.inputCommitments.get 0)
    (proof.inputMerklePaths.get 0)
  let root ← AggUtxo.removeInput poseidon root (proof.inputCommitments.get 1)
    (proof.inputMerklePaths.get 1)
  let root ← AggUtxo.insertOutput poseidon root (proof.outputCommitments.get 0)
    (proof.outputMerklePaths.get 0)
  AggUtxo.insertOutput poseidon root (proof.outputCommitments.get 1)
    (proof.outputMerklePaths.get 1)

variable (tempNoir) in
theorem exists_recordTxn (currentBlock : Nat) {tree : NotesTree} {txn : UtxoProof}
    (sound : tree.Sound (Node.merge poseidon) (SimpleHashCache.hash (Node.merge poseidon)))
    (ready : Ready tree.tree.leaves (txnChanges txn)) :
    ∃ next bundle, recordTxn poseidon tempNoir currentBlock tree txn = .ok (next, bundle) ∧
      bundle.utxoProof = txn ∧
      Records poseidon tree (txnChanges txn)
        (applyPaths poseidon (bundle.input proofFields)) next := by
  have ready2 := ready.left
  have ready1 := ready2.left
  rcases exists_recordInput tempNoir sound ready1.left with
    ⟨tree0, input0, taken0, records0⟩
  have next1 := ready1.right
  rw [← records0.leaves] at next1
  rcases exists_recordInput tempNoir records0.sound next1 with
    ⟨tree1, input1, taken1, records1⟩
  have both1 := records0.bind ready1 records1
  have next2 := ready2.right
  rw [← both1.leaves] at next2
  rcases exists_recordOutput tempNoir currentBlock both1.sound next2 with
    ⟨tree2, output0, taken2, records2⟩
  have both2 := both1.bind ready2 records2
  have next3 := ready.right
  rw [← both2.leaves] at next3
  rcases exists_recordOutput tempNoir currentBlock both2.sound next3 with
    ⟨tree3, output1, taken3, records3⟩
  refine ⟨tree3, ⟨txn, #v[input0, input1], #v[output0, output1]⟩, ?_, rfl, ?_⟩
  · simp only [recordTxn, taken0, taken1, taken2, taken3, ok_bind]
    rfl
  · have all := both2.bind ready records3
    have same : applyPaths poseidon
        ((Bundle.mk txn #v[input0, input1] #v[output0, output1]).input proofFields) =
          fun root => (((AggUtxo.removeInput poseidon root
            (txn.publicInputs.inputCommitments.get 0).toBase input0.words >>= fun root =>
              AggUtxo.removeInput poseidon root
                (txn.publicInputs.inputCommitments.get 1).toBase input1.words) >>= fun root =>
              AggUtxo.insertOutput poseidon root
                (txn.publicInputs.outputCommitments.get 0).toBase output0.words) >>= fun root =>
              AggUtxo.insertOutput poseidon root
                (txn.publicInputs.outputCommitments.get 1).toBase output1.words) := by
      funext root
      simp only [bind_assoc]
      simp only [applyPaths, Bundle.input, proofInput, get_eq_getElem, Vector.getElem_map]
      rfl
    rw [same]
    exact all

/-! ## Groups -/

/-- The changes of several transactions. -/
abbrev groupChanges (txns : List UtxoProof) : List (Smirk.Change × Element) :=
  txns.flatMap txnChanges

variable (poseidon) in
/-- The circuit follows each transaction that is not padding, and skips the
others, while the tree takes the changes of all of them. -/
inductive Recorded : (Nat → Element) → List UtxoProof → List Bundle → Prop
  | nil {leaves} : Recorded leaves [] []
  | cons {leaves txn txns bundle bundles}
      (tracks : isPadding txn = false →
        Tracks (fun root => AggUtxo.applyCommitments poseidon root (bundle.input proofFields))
          (rootOf poseidon leaves) (rootOf poseidon (changed (txnChanges txn) leaves))
          (txnChanges txn ≠ []))
      (skips : isPadding txn = true → ∀ root,
        AggUtxo.applyCommitments poseidon root (bundle.input proofFields) = .ok root)
      (rest : Recorded (changed (txnChanges txn) leaves) txns bundles) :
      Recorded leaves (txn :: txns) (bundle :: bundles)

variable {proofFields}

variable (proofFields) in
theorem utxoKind_input_ne_zero {bundle : Bundle} (real : isPadding bundle.utxoProof = false) :
    (bundle.input proofFields).utxoKind ≠ 0 := by
  have kind : bundle.utxoProof.kind ≠ .null := of_decide_eq_false real
  change bundle.utxoProof.kind.toElement.toBase ≠ 0
  revert kind
  cases bundle.utxoProof.kind <;> decide

@[simp]
theorem applyCommitments_padding (root : Base) :
    AggUtxo.applyCommitments poseidon root (Bundle.padding.input proofFields) = .ok root :=
  rfl

variable (proofFields tempNoir) in
/-- The prover finds all its paths. -/
theorem exists_genMerklePaths (currentBlock : Nat) {tree : NotesTree} {txns : List UtxoProof}
    (sound : tree.Sound (Node.merge poseidon) (SimpleHashCache.hash (Node.merge poseidon)))
    (ready : Ready tree.tree.leaves (groupChanges txns)) :
    ∃ next bundles,
      genMerklePaths poseidon tempNoir currentBlock tree txns = .ok (next, bundles) ∧
        next.Sound (Node.merge poseidon) (SimpleHashCache.hash (Node.merge poseidon)) ∧
        next.tree.leaves = changed (groupChanges txns) tree.tree.leaves ∧
        Recorded proofFields poseidon tree.tree.leaves txns (bundles.map Bundle.forCircuit) := by
  induction txns generalizing tree with
  | nil => exact ⟨tree, [], rfl, sound, rfl, .nil⟩
  | cons txn txns ih =>
      rw [groupChanges, List.flatMap_cons] at ready ⊢
      rcases exists_recordTxn proofFields tempNoir currentBlock sound ready.left with
        ⟨middle, bundle, taken, rfl, records⟩
      have readyNext := ready.right
      rw [← records.leaves] at readyNext
      rcases ih records.sound readyNext with ⟨next, bundles, takenRest, nextSound, leaves, recorded⟩
      refine ⟨next, bundle :: bundles, ?_, nextSound, ?_, ?_⟩
      · simp only [genMerklePaths, taken, takenRest, ok_bind]
        rfl
      · rw [leaves, records.leaves, ready.changed_append]
      · rw [records.leaves] at recorded
        apply Recorded.cons _ _ recorded
        · intro real
          have kind := utxoKind_input_ne_zero proofFields real
          have tracks := records.tracks
          rw [records.leaves] at tracks
          rw [Bundle.forCircuit, real, if_neg Bool.false_ne_true]
          simp only [AggUtxo.applyCommitments, if_pos kind]
          exact tracks
        · intro padding root
          rw [Bundle.forCircuit, padding, if_pos rfl]
          exact applyCommitments_padding root

@[simp]
theorem replay_cons (root : Base) (bundle : Bundle) (bundles : List Bundle) :
    replay proofFields poseidon root (bundle :: bundles) =
      AggUtxo.applyCommitments poseidon root (bundle.input proofFields) >>= fun root =>
        replay proofFields poseidon root bundles := by
  rw [replay, List.map_cons, List.foldlM_cons]
  rfl

/-- Padding that leaves the tree alone is replayed. -/
theorem Recorded.replay_eq {leaves : Nat → Element} {txns : List UtxoProof}
    {bundles : List Bundle} (recorded : Recorded proofFields poseidon leaves txns bundles)
    (ready : Ready leaves (groupChanges txns))
    (quiet : ∀ txn ∈ txns, isPadding txn = true → txnChanges txn = []) :
    replay proofFields poseidon (rootOf poseidon leaves) bundles =
      .ok (rootOf poseidon (changed (groupChanges txns) leaves)) := by
  induction recorded with
  | nil => rfl
  | @cons leaves txn txns bundle bundles tracks skips _ ih =>
      rw [groupChanges, List.flatMap_cons] at ready ⊢
      rw [ready.changed_append]
      have rest := ih ready.right fun other mem => quiet other (List.mem_cons_of_mem _ mem)
      rw [replay_cons]
      cases padding : isPadding txn with
      | false => rw [(tracks padding).apply, ok_bind, rest]
      | true =>
          rw [quiet txn List.mem_cons_self padding] at rest ⊢
          rw [skips padding, ok_bind]
          exact rest

/-- A root that the tree has left behind does not lead to the last one. -/
theorem Recorded.not_replay_of_stale {leaves : Nat → Element} {txns : List UtxoProof}
    {bundles : List Bundle} {root : Base}
    (recorded : Recorded proofFields poseidon leaves txns bundles)
    (ready : Ready leaves (groupChanges txns))
    (stale : ∀ done rest, txns = done ++ rest →
      root ≠ rootOf poseidon (changed (groupChanges done) leaves)) :
    replay proofFields poseidon root bundles ≠
      .ok (rootOf poseidon (changed (groupChanges txns) leaves)) := by
  induction recorded with
  | nil =>
      intro reaches
      exact stale [] [] rfl (Except.ok.inj reaches)
  | @cons leaves txn txns bundle bundles tracks skips _ ih =>
      rw [groupChanges, List.flatMap_cons] at ready ⊢
      rw [ready.changed_append, replay_cons]
      have rest : replay proofFields poseidon root bundles ≠
          .ok (rootOf poseidon (changed (groupChanges txns) (changed (txnChanges txn) leaves))) := by
        apply ih ready.right
        rintro done rest rfl
        have readyDone : Ready leaves (txnChanges txn ++ groupChanges done) := by
          rw [List.flatMap_append, ← List.append_assoc] at ready
          exact ready.left
        rw [← readyDone.changed_append]
        exact stale (txn :: done) rest rfl
      cases padding : isPadding txn with
      | true => rwa [skips padding, ok_bind]
      | false =>
          by_cases touched : txnChanges txn ≠ []
          · intro reaches
            rcases bind_eq_ok_iff.mp reaches with ⟨value, followed, _⟩
            exact stale [] _ rfl ((tracks padding).touched touched |>.mp followed).1
          · rwa [((tracks padding).untouched touched).2, ok_bind]

variable (poseidon) in
/-- The root of the tree is never the same before and after some changes. -/
def RootsDiffer (leaves : Nat → Element) (txns : List UtxoProof) : Prop :=
  ∀ before step rest, txns = before ++ step ++ rest → groupChanges step ≠ [] →
    rootOf poseidon (changed (groupChanges before) leaves) ≠
      rootOf poseidon (changed (groupChanges (before ++ step)) leaves)

@[simp]
theorem groupChanges_append (first second : List UtxoProof) :
    groupChanges (first ++ second) = groupChanges first ++ groupChanges second :=
  List.flatMap_append

theorem Ready.changed_groupChanges_append {leaves : Nat → Element} {first second : List UtxoProof}
    (ready : Ready leaves (groupChanges (first ++ second))) :
    changed (groupChanges (first ++ second)) leaves =
      changed (groupChanges second) (changed (groupChanges first) leaves) := by
  rw [groupChanges_append] at ready ⊢
  exact ready.changed_append

theorem RootsDiffer.left {leaves : Nat → Element} {first second : List UtxoProof}
    (differ : RootsDiffer poseidon leaves (first ++ second)) : RootsDiffer poseidon leaves first := by
  rintro before step rest rfl
  exact differ before step (rest ++ second) (by simp)

theorem RootsDiffer.right {leaves : Nat → Element} {first second : List UtxoProof}
    (ready : Ready leaves (groupChanges (first ++ second)))
    (differ : RootsDiffer poseidon leaves (first ++ second)) :
    RootsDiffer poseidon (changed (groupChanges first) leaves) second := by
  rintro before step rest rfl touched
  have different := differ (first ++ before) step rest (by simp) touched
  have readyAfter : Ready leaves (groupChanges (first ++ (before ++ step))) := by
    rw [← List.append_assoc, groupChanges_append] at ready
    exact ready.left
  have readyBefore : Ready leaves (groupChanges (first ++ before)) := by
    rw [← List.append_assoc, groupChanges_append] at readyAfter
    exact readyAfter.left
  rwa [List.append_assoc, readyBefore.changed_groupChanges_append,
    readyAfter.changed_groupChanges_append] at different

/-- If the root of the tree changes with every change, then only padding that
leaves the tree alone is replayed. -/
theorem Recorded.quiet_of_replay {leaves : Nat → Element} {txns : List UtxoProof}
    {bundles : List Bundle} (recorded : Recorded proofFields poseidon leaves txns bundles)
    (ready : Ready leaves (groupChanges txns)) (differ : RootsDiffer poseidon leaves txns)
    (reaches : replay proofFields poseidon (rootOf poseidon leaves) bundles =
      .ok (rootOf poseidon (changed (groupChanges txns) leaves))) :
    ∀ txn ∈ txns, isPadding txn = true → txnChanges txn = [] := by
  induction recorded with
  | nil =>
      intro txn mem
      exact absurd mem List.not_mem_nil
  | @cons leaves txn txns bundle bundles tracks skips recorded ih =>
      rw [← List.singleton_append] at ready differ
      rw [show txn :: txns = [txn] ++ txns from rfl] at reaches
      have first : groupChanges [txn] = txnChanges txn := List.flatMap_singleton _ _
      have differTail := differ.right ready
      rw [ready.changed_groupChanges_append, replay_cons, first] at reaches
      rw [first] at differTail
      rw [groupChanges_append, first] at ready
      have quietHead : isPadding txn = true → txnChanges txn = [] := by
        intro padding
        by_contra touched
        rw [skips padding, ok_bind] at reaches
        apply recorded.not_replay_of_stale ready.right _ reaches
        rintro done rest rfl
        have readyDone : Ready leaves (groupChanges ([txn] ++ done)) := by
          rw [groupChanges_append, first]
          rw [groupChanges_append, ← List.append_assoc] at ready
          exact ready.left
        rw [← first, ← readyDone.changed_groupChanges_append]
        apply differ [] ([txn] ++ done) rest rfl
        intro untouched
        rw [groupChanges_append, first, List.append_eq_nil_iff] at untouched
        exact touched untouched.1
      have followed : AggUtxo.applyCommitments poseidon (rootOf poseidon leaves)
          (bundle.input proofFields) = .ok (rootOf poseidon (changed (txnChanges txn) leaves)) := by
        cases padding : isPadding txn with
        | false => exact (tracks padding).apply
        | true =>
            rw [quietHead padding]
            exact skips padding _
      rw [followed, ok_bind] at reaches
      intro other mem
      rcases List.mem_cons.mp mem with rfl | mem
      · exact quietHead
      · exact ih ready.right differTail reaches other mem

/-! ## Aggregations -/

variable (proofFields poseidon) in
/-- The aggregation of a group: its roots, and its bundles for the circuit. -/
structure AggregationOf (leaves : Nat → Element) (utxos : List UtxoProof) (aggregation : AggUtxo) :
    Prop where
  oldRoot : aggregation.oldRoot = root (Node.merge poseidon) (MERKLE_TREE_DEPTH - 1) leaves
  newRoot : aggregation.newRoot = root (Node.merge poseidon) (MERKLE_TREE_DEPTH - 1)
    (changed (groupChanges utxos) leaves)
  recorded : Recorded proofFields poseidon leaves utxos aggregation.proofs

theorem aggregateUtxo_of_padding (currentBlock : Nat) (tree : NotesTree) {utxos : List UtxoProof}
    (padding : utxos.all isPadding = true) :
    aggregateUtxo poseidon tempNoir currentBlock tree utxos = .ok (tree, none) :=
  if_pos padding

variable (proofFields tempNoir) in
theorem exists_aggregateUtxo (currentBlock : Nat) {tree : NotesTree} {utxos : List UtxoProof}
    (sound : tree.Sound (Node.merge poseidon) (SimpleHashCache.hash (Node.merge poseidon)))
    (ready : Ready tree.tree.leaves (groupChanges utxos)) (real : utxos.all isPadding = false) :
    ∃ next aggregation,
      aggregateUtxo poseidon tempNoir currentBlock tree utxos = .ok (next, some aggregation) ∧
        next.Sound (Node.merge poseidon) (SimpleHashCache.hash (Node.merge poseidon)) ∧
        next.tree.leaves = changed (groupChanges utxos) tree.tree.leaves ∧
        AggregationOf proofFields poseidon tree.tree.leaves utxos aggregation := by
  rcases exists_genMerklePaths proofFields tempNoir currentBlock sound ready with
    ⟨next, bundles, taken, nextSound, leaves, recorded⟩
  refine ⟨next, ⟨bundles.map Bundle.forCircuit, tree.tree.rootHash (Node.merge poseidon),
    next.tree.rootHash (Node.merge poseidon)⟩, ?_, nextSound, leaves,
    ⟨sound.wellFormed.rootHash_eq, ?_, recorded⟩⟩
  · rw [aggregateUtxo, real, if_neg Bool.false_ne_true, taken]
    rfl
  · rw [← leaves]
    exact nextSound.wellFormed.rootHash_eq

/-- A root is a word of the field. -/
@[simp]
theorem fromBase_toBase_root (leaves : Nat → Element) :
    Element.fromBase (root (Node.merge poseidon) (MERKLE_TREE_DEPTH - 1) leaves).toBase =
      root (Node.merge poseidon) (MERKLE_TREE_DEPTH - 1) leaves := by
  rw [show MERKLE_TREE_DEPTH - 1 = 159 + 1 from rfl, root_succ, Node.merge, hashMerge,
    Element.toBase_fromBase]

namespace AggregationOf

variable {leaves : Nat → Element} {utxos : List UtxoProof} {aggregation : AggUtxo}

theorem publicInputs_eq (aggregates : AggregationOf proofFields poseidon leaves utxos aggregation) :
    publicInputs (some aggregation) =
      ⟨root (Node.merge poseidon) (MERKLE_TREE_DEPTH - 1) leaves,
        root (Node.merge poseidon) (MERKLE_TREE_DEPTH - 1) (changed (groupChanges utxos) leaves)⟩ := by
  rw [publicInputs, aggregates.oldRoot, aggregates.newRoot, fromBase_toBase_root,
    fromBase_toBase_root]

/-- The circuit replays an aggregation exactly when the padding in it changes
nothing. -/
theorem replays_iff (aggregates : AggregationOf proofFields poseidon leaves utxos aggregation)
    (ready : Ready leaves (groupChanges utxos)) (differ : RootsDiffer poseidon leaves utxos) :
    aggregation.Replays proofFields poseidon ↔
      ∀ txn ∈ utxos, isPadding txn = true → txnChanges txn = [] := by
  rw [AggUtxo.Replays, aggregates.oldRoot, aggregates.newRoot]
  constructor
  · exact aggregates.recorded.quiet_of_replay ready differ
  · exact aggregates.recorded.replay_eq ready

end AggregationOf

end

end Ciphera.Prover
