import Ciphera.Node.Commit
import Ciphera.Node.Transaction
import Ciphera.Lib.Run

/-!
# Mint hashes

A mint draws on a deposit that its mint hash names.  The store indexes the mint
hashes of earlier blocks, so a later block cannot use one again.  Inside one
block, and among the pending transactions, only commitments are kept apart:
two mints with different outputs may name the same deposit.
-/

namespace Ciphera.Node

open Ciphera.Lib Ciphera.Noir Ciphera.Smirk Ciphera.Zk

/-- The hashes of the mints of a block. -/
def BlockContent.mintHashes (content : BlockContent) : List Element :=
  content.state.txns.filterMap UtxoProof.mintHash

section Stored

variable (poseidon : Poseidon) (keccak : Keccak) (verify : Verify)

/-- A block, the tree it is validated on and the time of its commit. -/
structure Stored where
  block : Block
  notesTree : PersistentMerkleTree
  commitTime : Nat

/-- A block is validated and stored. -/
def Stored.Step (store : Store) (stored : Stored) (next : Store) : Prop :=
  stored.block.content.validate poseidon verify store stored.notesTree = .ok () ∧
    next = store.set (BlockFormat.indexing poseidon keccak)
      (.v2 stored.block (some stored.commitTime))

/-- The mint hashes of a chain of blocks. -/
def Stored.mintHashes (blocks : List Stored) : List Element :=
  blocks.flatMap fun stored => stored.block.content.mintHashes

variable {poseidon keccak verify}

/-- No mint of a validated block is in the store. -/
theorem BlockValid.mintHash_fresh {store : Store} {notesTree : PersistentMerkleTree}
    {content : BlockContent} (valid : BlockValid poseidon verify store notesTree content)
    {mintHash : Element} (mem : mintHash ∈ content.mintHashes) : ¬store.Minted mintHash := by
  obtain ⟨txn, txnMem, minted⟩ := List.mem_filterMap.mp mem
  exact (valid.txns txn txnMem).mintFresh mintHash minted

/-- The store knows exactly the mint hashes of its blocks. -/
theorem minted_iff_of_run {blocks : List Stored} {store : Store}
    (run : Run (Stored.Step poseidon keccak verify) {} blocks store) (mintHash : Element) :
    store.Minted mintHash ↔ mintHash ∈ Stored.mintHashes blocks := by
  induction run with
  | nil => simp [BlockStore.not_minted_empty, Stored.mintHashes]
  | snoc run taken ih =>
      rw [taken.2, BlockFormat.minted_set_iff, ih, Stored.mintHashes, Stored.mintHashes,
        List.flatMap_append, List.flatMap_singleton, List.mem_append]
      exact or_comm

/-- Over every run, mint hashes repeat only inside one block. -/
theorem nodup_mintHashes_of_run {blocks : List Stored} {store : Store}
    (run : Run (Stored.Step poseidon keccak verify) {} blocks store) :
    (Stored.mintHashes blocks).Nodup ↔
      ∀ stored ∈ blocks, stored.block.content.mintHashes.Nodup := by
  induction run with
  | nil => simp [Stored.mintHashes]
  | @snoc blocks middle stored next run taken ih =>
      have fresh : List.Disjoint (Stored.mintHashes blocks) stored.block.content.mintHashes := by
        intro mintHash old new
        exact (validate_eq_ok_iff.mp taken.1).mintHash_fresh new
          ((minted_iff_of_run run mintHash).mpr old)
      rw [Stored.mintHashes, List.flatMap_append, List.flatMap_singleton, List.nodup_append',
        List.forall_mem_append, List.forall_mem_singleton, ← ih]
      exact ⟨fun ⟨old, new, _⟩ => ⟨old, new⟩, fun ⟨old, new⟩ => ⟨old, new, fresh⟩⟩

end Stored

/-! ## Proposers -/

/-- A proposer: the height of its chain and its mempool. -/
structure Proposer (S : Type) where
  height : Nat
  mempool : NodeMempool S

/-- What happens to the mempool of a proposer. -/
inductive Event (S R : Type)
  | add (utxo : UtxoProof) (sender : Option S)
  | lease (maxCount : Nat) (batch : List (Element × UtxoProof))
  | commit (keysWithResults : List (Element × R)) (confirmed : Bool)

namespace Proposer

variable {S R : Type} (poseidon : Poseidon) (verify : Verify)

/-- Transactions are admitted on the contract, store and tree of the moment.  A
proposal leases under the next height, and every outcome of it commits under
the same height: some keys with their results, and the block if it is
confirmed. -/
inductive Step : Proposer S → Event S R → Proposer S → Prop
  | add {proposer : Proposer S} {mempool : NodeMempool S} {utxo : UtxoProof}
      {sender : Option S} {contract : Rollup.Storage} {store : Store}
      {notesTree : PersistentMerkleTree}
      (admits : Admits poseidon verify contract store notesTree proposer.mempool utxo sender
        mempool) :
      Step proposer (.add utxo sender) ⟨proposer.height, mempool⟩
  | lease {proposer : Proposer S} {mempool : NodeMempool S} {maxCount : Nat}
      {batch : List (Element × UtxoProof)}
      (leased : proposer.mempool.leaseBatch (proposer.height + 1) maxCount =
        .ok (mempool, batch)) :
      Step proposer (.lease maxCount batch) ⟨proposer.height, mempool⟩
  | commit {proposer : Proposer S} {keysWithResults : List (Element × R)} {confirmed : Bool} :
      Step proposer (.commit keysWithResults confirmed)
        ⟨if confirmed then proposer.height + 1 else proposer.height,
          (proposer.mempool.commit (proposer.height + 1) keysWithResults).1⟩

/-- An admitted mint draws on a deposit that no pending mint draws on. -/
def FreshMint (proposer : Proposer S) : Event S R → Prop
  | .add utxo _ =>
      ∀ mintHash, utxo.mintHash = some mintHash →
        mintHash ∉ proposer.mempool.labels UtxoProof.mintHash
  | .lease _ _ => True
  | .commit _ _ => True

/-- What holds of the mempool of a proposer at all times: only the lease of the
next height has keys, and pending mints have different hashes. -/
structure Sound (proposer : Proposer S) : Prop where
  partitioned : proposer.mempool.Partitioned
  leasedNext : ∀ height, height ≠ proposer.height + 1 → proposer.mempool.leased height = []
  mintsNodup : (proposer.mempool.labels UtxoProof.mintHash).Nodup

theorem sound_initial (height : Nat) : (⟨height, {}⟩ : Proposer S).Sound where
  partitioned := Mempool.partitioned_empty
  leasedNext _ _ := rfl
  mintsNodup := List.nodup_nil

variable {poseidon verify}

theorem Sound.step {proposer next : Proposer S} {event : Event S R} (sound : proposer.Sound)
    (taken : Step poseidon verify proposer event next) (fresh : proposer.FreshMint event) :
    next.Sound := by
  cases taken with
  | @add mempool utxo sender _ _ _ admits =>
      have added := admits.2
      refine ⟨sound.partitioned.add added, ?_, ?_⟩
      · obtain ⟨_, rfl⟩ := Mempool.add_eq_ok added
        exact sound.leasedNext
      · change (mempool.labels UtxoProof.mintHash).Nodup
        rw [Mempool.labels_add UtxoProof.mintHash added]
        cases minted : utxo.mintHash with
        | none => simpa using sound.mintsNodup
        | some mintHash =>
            exact sound.mintsNodup.append (List.nodup_singleton mintHash)
              (List.disjoint_singleton.mpr (fresh mintHash minted))
  | lease leased =>
      refine ⟨(sound.partitioned.leaseBatch leased).1, fun height differ => ?_, ?_⟩
      · obtain ⟨_, _, _, rfl⟩ := Mempool.leaseBatch_eq_ok leased
        simp only [Function.update_of_ne differ]
        exact sound.leasedNext height differ
      · rw [Mempool.labels_leaseBatch UtxoProof.mintHash leased]
        exact sound.mintsNodup
  | @commit keysWithResults confirmed =>
      have leasedEq := (proposer.mempool.commit_spec (proposer.height + 1) keysWithResults).2
      refine ⟨sound.partitioned.commit fun height differ entry _ held => ?_, fun height _ => ?_, ?_⟩
      · rw [sound.leasedNext height differ] at held
        exact List.not_mem_nil held
      · rw [leasedEq]
        by_cases same : height = proposer.height + 1
        · rw [same, Function.update_self]
        · rw [Function.update_of_ne same, sound.leasedNext height same]
      · exact (Mempool.labels_commit_sublist UtxoProof.mintHash _ _ _).nodup sound.mintsNodup

/-- A run in which every admitted mint is fresh. -/
abbrev FreshRun (poseidon : Poseidon) (verify : Verify) :
    Proposer S → List (Event S R) → Proposer S → Prop :=
  Run fun proposer event next =>
    Step poseidon verify proposer event next ∧ proposer.FreshMint event

theorem sound_of_freshRun {height : Nat} {events : List (Event S R)} {proposer : Proposer S}
    (run : FreshRun poseidon verify ⟨height, {}⟩ events proposer) : proposer.Sound := by
  induction run with
  | nil => exact sound_initial height
  | snoc run taken ih => exact ih.step taken.1 taken.2

/-- The batches leased in such a run use each deposit once. -/
theorem nodup_batch_of_freshRun {height : Nat} {events : List (Event S R)}
    {proposer : Proposer S} (run : FreshRun poseidon verify ⟨height, {}⟩ events proposer)
    {maxCount : Nat} {batch : List (Element × UtxoProof)}
    (leased : .lease maxCount batch ∈ events) :
    (batch.filterMap fun entry => entry.2.mintHash).Nodup := by
  induction run with
  | nil => simp at leased
  | snoc run taken ih =>
      rcases List.mem_append.mp leased with earlier | last
      · exact ih earlier
      · obtain rfl := List.mem_singleton.mp last
        cases taken.1 with
        | lease leased =>
            have sound := sound_of_freshRun run
            exact Mempool.nodup_labels_of_leaseBatch UtxoProof.mintHash sound.partitioned
              sound.mintsNodup leased

end Proposer

/-! ## Mints on one deposit -/

/-- A mint of three units of the note kind five, with one output. -/
def mintTxn (mintHash leaf : Element) : UtxoProof where
  proof := []
  publicInputs := .single leaf 2 5 3 mintHash 0

/-- A contract with the deposit for such a mint. -/
def deposited (mintHash : Element) : Rollup.Storage where
  mints hash := if hash = mintHash then ⟨5, 3, false⟩ else {}

@[simp]
theorem kindMessages_mintTxn (mintHash leaf : Element) :
    (mintTxn mintHash leaf).kindMessages = .mint ⟨5, 3, mintHash⟩ := by
  simp [UtxoProof.kindMessages, mintTxn, UtxoPublicInput.single, UtxoPublicInput.kindMessages, UtxoPublicInput.kind,
    UtxoKind.ofByte, get_eq_getElem]

@[simp]
theorem mintHash_mintTxn (mintHash leaf : Element) :
    (mintTxn mintHash leaf).mintHash = some mintHash := by
  have messages := kindMessages_mintTxn mintHash leaf
  rw [UtxoProof.kindMessages] at messages
  rw [UtxoProof.mintHash, UtxoPublicInput.mintHash, messages]

@[simp]
theorem changes_mintTxn {mintHash leaf : Element} (nonzero : leaf ≠ Element.ZERO) :
    changes (mintTxn mintHash leaf).publicInputs = [leaf] := by
  have commitments : (mintTxn mintHash leaf).publicInputs.commitments.toList = [0, 0, leaf, 0] :=
    rfl
  simp [changes, commitments, nonzero]

theorem mintTxn_valid {verify : Verify} {mintHash leaf : Element}
    (verified : verify (mintTxn mintHash leaf) = true) (canonical : leaf < Element.MODULUS) :
    TxnValid verify {} emptyTree (mintTxn mintHash leaf) :=
  singleOutput_valid verified canonical (not_mem_emptyTree leaf)
    (BlockStore.not_recorded_empty leaf) fun mintHash _ => BlockStore.not_minted_empty mintHash

theorem validateTransaction_mintTxn {verify : Verify} {mintHash leaf : Element}
    (verified : verify (mintTxn mintHash leaf) = true) (canonical : leaf < Element.MODULUS) :
    validateTransaction verify (deposited mintHash) {} emptyTree (mintTxn mintHash leaf) =
      .ok () := by
  refine validateTransaction_eq_ok_iff.mpr ⟨fun mintMsgs messages => ?_,
    mintTxn_valid verified canonical⟩
  rw [kindMessages_mintTxn] at messages
  obtain rfl := UtxoKindMessages.mint.inj messages
  have mintEq : (deposited mintHash).mints mintHash = ⟨5, 3, false⟩ := if_pos rfl
  constructor
  · rw [mintEq]
  · rw [mintEq]
  · rw [mintEq]
  · intro kindZero
    exact absurd kindZero (show (5 : Element) ≠ Element.ZERO by decide)

/-- The mempool in which such mints are pending. -/
def pendingMints (poseidon : Poseidon) (mintHash : Element) (leaves : List Element) :
    NodeMempool Unit where
  txns := leaves.map fun leaf =>
    ((mintTxn mintHash leaf).hash poseidon, ⟨mintTxn mintHash leaf, none, [leaf]⟩)
  pool := leaves.map fun leaf => (mintTxn mintHash leaf).hash poseidon

section Deposit

variable {poseidon : Poseidon} {verify : Verify}

theorem admits_first {mintHash leaf : Element}
    (verified : verify (mintTxn mintHash leaf) = true) (canonical : leaf < Element.MODULUS)
    (nonzero : leaf ≠ Element.ZERO) :
    Admits poseidon verify (deposited mintHash) {} emptyTree {} (mintTxn mintHash leaf) none
      (pendingMints poseidon mintHash [leaf]) := by
  refine ⟨validateTransaction_mintTxn verified canonical, ?_⟩
  rw [addTransaction, changes_mintTxn nonzero]
  rfl

theorem twinMints_stored (keccak : Keccak) (firstVerified : verify (mintTxn 7 1) = true)
    (secondVerified : verify (mintTxn 7 2) = true) :
    ∃ stored store, Run (Stored.Step poseidon keccak verify) {} [stored] store ∧
      ¬(Stored.mintHashes [stored]).Nodup := by
  obtain ⟨rootHash, validated⟩ : ∃ rootHash, (BlockContent.mk ⟨1, 0, 0, 0, []⟩
      ⟨rootHash, [mintTxn 7 1, mintTxn 7 2]⟩).validate poseidon verify {} emptyTree = .ok () := by
    refine exists_validate emptyTree_wellFormed (fun txn mem => ?_) (by decide)
    rcases List.mem_pair.mp mem with rfl | rfl
    · exact mintTxn_valid firstVerified (by decide)
    · exact mintTxn_valid secondVerified (by decide)
  refine ⟨⟨⟨⟨⟨1, 0, 0, 0, []⟩, ⟨rootHash, [mintTxn 7 1, mintTxn 7 2]⟩⟩, ⟨0, 0, 0⟩⟩, emptyTree, 0⟩,
    _, .snoc .nil ⟨validated, rfl⟩, ?_⟩
  simp [Stored.mintHashes, BlockContent.mintHashes, mintHash_mintTxn]

/-- The second mint finds no conflict, and both are leased. -/
theorem twinMints_leased (firstVerified : verify (mintTxn 7 1) = true)
    (secondVerified : verify (mintTxn 7 2) = true)
    (differ : (mintTxn 7 1).hash poseidon ≠ (mintTxn 7 2).hash poseidon) :
    ∃ batch proposer, Run (Proposer.Step poseidon verify) (⟨0, {}⟩ : Proposer Unit)
        ([.add (mintTxn 7 1) none, .add (mintTxn 7 2) none, .lease 6 batch] :
          List (Event Unit Unit)) proposer ∧
      ¬(batch.filterMap fun entry : Element × UtxoProof => entry.2.mintHash).Nodup := by
  have first : Admits poseidon verify (deposited 7) {} emptyTree {} (mintTxn 7 1) none
      (pendingMints poseidon 7 [1]) := admits_first firstVerified (by decide) (by decide)
  have keysDiffer :
      ((mintTxn 7#256 2#256).hash poseidon == (mintTxn 7#256 1#256).hash poseidon) = false :=
    beq_eq_false_iff_ne.mpr differ.symm
  have second : Admits poseidon verify (deposited 7) {} emptyTree (pendingMints poseidon 7 [1])
      (mintTxn 7 2) none (pendingMints poseidon 7 [1, 2]) := by
    refine ⟨validateTransaction_mintTxn secondVerified (by decide), ?_⟩
    rw [addTransaction, changes_mintTxn (by decide)]
    simp [Mempool.add, pendingMints, List.lookup_cons, keysDiffer]
  obtain ⟨mempool, leased⟩ : ∃ mempool, (pendingMints poseidon 7 [1, 2]).leaseBatch 1 6 =
      .ok (mempool, [((mintTxn 7 1).hash poseidon, mintTxn 7 1),
        ((mintTxn 7 2).hash poseidon, mintTxn 7 2)]) := by
    simp [Mempool.leaseBatch, Mempool.leaseLoop, pendingMints, List.lookup_cons, keysDiffer]
  refine ⟨_, ⟨0, mempool⟩, .snoc (.snoc (.snoc .nil (.add first)) (.add second))
    (.lease leased), ?_⟩
  simp [mintHash_mintTxn]

end Deposit

/-- A chain uses a mint hash twice only inside one block, and a proposer leases
a mint hash twice only after admitting a mint whose hash is pending. -/
theorem mintHashes_used_once (S R : Type) (poseidon : Poseidon) (keccak : Keccak)
    (verify : Verify) :
    (∀ (blocks : List Stored) (store : Store),
      Run (Stored.Step poseidon keccak verify) {} blocks store →
        ((Stored.mintHashes blocks).Nodup ↔
          ∀ stored ∈ blocks, stored.block.content.mintHashes.Nodup)) ∧
      ∀ (height : Nat) (events : List (Event S R)) (proposer : Proposer S),
        Proposer.FreshRun poseidon verify ⟨height, {}⟩ events proposer →
          ∀ (maxCount : Nat) (batch : List (Element × UtxoProof)),
            .lease maxCount batch ∈ events →
              (batch.filterMap fun entry => entry.2.mintHash).Nodup :=
  ⟨fun _ _ run => nodup_mintHashes_of_run run,
    fun _ _ _ run _ _ leased => Proposer.nodup_batch_of_freshRun run leased⟩

/-- One mint, in a block and in a batch. -/
theorem singleMint_used_once :
    ∃ stored store batch proposer,
      Run (Stored.Step (fun _ => 0) (fun _ => 0) fun _ => true) {} [stored] store ∧
        Stored.mintHashes [stored] = [7] ∧ (Stored.mintHashes [stored]).Nodup ∧
        Proposer.FreshRun (fun _ => 0) (fun _ => true) (⟨0, {}⟩ : Proposer Unit)
          ([.add (mintTxn 7 1) none, .lease 6 batch] : List (Event Unit Unit)) proposer ∧
        (batch.filterMap fun entry : Element × UtxoProof => entry.2.mintHash) = [7] ∧
        (batch.filterMap fun entry : Element × UtxoProof => entry.2.mintHash).Nodup := by
  obtain ⟨rootHash, validated⟩ : ∃ rootHash, (BlockContent.mk ⟨1, 0, 0, 0, []⟩
      ⟨rootHash, [mintTxn 7 1]⟩).validate (fun _ => 0) (fun _ => true) {} emptyTree = .ok () := by
    refine exists_validate emptyTree_wellFormed (fun txn mem => ?_) (by decide)
    rw [List.mem_singleton.mp mem]
    exact mintTxn_valid rfl (by decide)
  have stored : Run (Stored.Step (fun _ => 0) (fun _ => 0) fun _ => true) {}
      [⟨⟨⟨⟨1, 0, 0, 0, []⟩, ⟨rootHash, [mintTxn 7 1]⟩⟩, ⟨0, 0, 0⟩⟩, emptyTree, 0⟩] _ :=
    .snoc .nil ⟨validated, rfl⟩
  have fresh : Proposer.FreshRun (fun _ => 0) (fun _ => true) (⟨0, {}⟩ : Proposer Unit)
      ([.add (mintTxn 7 1) none, .lease 6 [(0, mintTxn 7 1)]] : List (Event Unit Unit)) _ :=
    .snoc
      (.snoc .nil
        ⟨.add (admits_first rfl (by decide) (by decide)), fun _ _ => List.not_mem_nil⟩)
      ⟨.lease rfl, trivial⟩
  have once := mintHashes_used_once Unit Unit (fun _ => 0) (fun _ => 0) fun _ => true
  exact ⟨_, _, _, _, stored, rfl,
    (once.1 _ _ stored).mpr (fun entry mem => List.mem_singleton.mp mem ▸ List.nodup_singleton 7),
    fresh, rfl, once.2 _ _ _ fresh 6 _ (by simp)⟩

/-- Two mints with different outputs name the same deposit: together they are a
valid block, and both are admitted and leased. -/
theorem twinMints_admitted :
    (mintTxn 7 1).mintHash = (mintTxn 7 2).mintHash ∧
      ∀ (poseidon : Poseidon) (keccak : Keccak) (verify : Verify),
        verify (mintTxn 7 1) = true → verify (mintTxn 7 2) = true →
        (mintTxn 7 1).hash poseidon ≠ (mintTxn 7 2).hash poseidon →
          (∃ stored store, Run (Stored.Step poseidon keccak verify) {} [stored] store ∧
            ¬(Stored.mintHashes [stored]).Nodup) ∧
          ∃ batch proposer, Run (Proposer.Step poseidon verify) (⟨0, {}⟩ : Proposer Unit)
              ([.add (mintTxn 7 1) none, .add (mintTxn 7 2) none, .lease 6 batch] :
                List (Event Unit Unit)) proposer ∧
            ¬(batch.filterMap fun entry : Element × UtxoProof => entry.2.mintHash).Nodup :=
  ⟨rfl, fun _ keccak _ firstVerified secondVerified differ =>
    ⟨twinMints_stored keccak firstVerified secondVerified,
      twinMints_leased firstVerified secondVerified differ⟩⟩

end Ciphera.Node
