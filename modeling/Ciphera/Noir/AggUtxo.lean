import Ciphera.Noir.Utxo
import Ciphera.Lib.Run
import Ciphera.Lib.Merkle
import Ciphera.Rollup.Message
import Mathlib.Tactic.FinCases

/-!
# The first aggregation circuit

Three transaction proofs are verified recursively and their commitments are
removed from and written into the notes tree, one after the other.  The public
inputs of each transaction are rebuilt from the prover's arguments and from
the public messages, which hold the words of mints and burns only.
-/

namespace Ciphera.Noir.AggUtxo

open Ciphera.Lib

/-- The hash of the only key that the circuit accepts. -/
def UTXO_VERIFICATION_KEY_HASH : Base :=
  Fin.ofNat modulus
    13437558190188331359745244003168182966555402200567357761776677508237206900292

/-- A proof of a transaction, with what the aggregation adds to it. -/
structure AggUtxoProofInput where
  proof : Vector Base 508
  utxoKind : Base
  inputMerklePaths : Vector (Vector Base 160) 2
  outputMerklePaths : Vector (Vector Base 160) 2
  inputCommitments : Vector Base 2
  outputCommitments : Vector Base 2
  deriving DecidableEq, Repr

/-- The arguments of the circuit.  The last four are public. -/
structure Witness where
  verificationKey : Vector Base 115
  verificationKeyHash : Base
  proofs : Vector AggUtxoProofInput 3
  messages : Vector Base 15
  oldRoot : Base
  newRoot : Base
  commitHash : Base
  deriving DecidableEq, Repr

/-- The public inputs: messages, roots and the hash of the commitments. -/
def Witness.publicInputs (witness : Witness) : Vector Base 18 :=
  witness.messages ++ #v[witness.oldRoot, witness.newRoot, witness.commitHash]

/-! ## Merkle paths -/

section Paths

variable (poseidon : Poseidon)

/-- The compression of the notes tree. -/
def merge (left right : Base) : Base := poseidon [left, right]

/-- The root over a leaf, along the path that the bits choose. -/
def getMerkleRoot (leaf : Base) (bits : Vector Bool 254) (merklePath : Vector Base 160) : Base :=
  (List.finRange 160).foldl
    (fun hash index =>
      if bits[index] = false then poseidon [hash, merklePath.get index]
      else poseidon [merklePath.get index, hash])
    leaf

/-- The root over an empty leaf. -/
def getNullRoot (bits : Vector Bool 254) (merklePath : Vector Base 160) : Base :=
  getMerkleRoot poseidon 0 bits merklePath

/-- The leaf is in the tree with the root. -/
def validateInclusion (leaf : Base) (bits : Vector Bool 254) (merklePath : Vector Base 160)
    (root : Base) : Circuit Unit :=
  check (getMerkleRoot poseidon leaf bits merklePath = root) "Merkle path root does not match"

/-- The place of the path is empty in the tree with the root. -/
def validateNull (bits : Vector Bool 254) (merklePath : Vector Base 160) (root : Base) :
    Circuit Unit :=
  check (getNullRoot poseidon bits merklePath = root) "Merkle path root does not match"

/-- Spend one input commitment. -/
def removeInput (root commitment : Base) (merklePath : Vector Base 160) : Circuit Base :=
  if commitment ≠ 0 then do
    validateInclusion poseidon commitment (toLeBits commitment) merklePath root
    pure (getNullRoot poseidon (toLeBits commitment) merklePath)
  else
    pure root

/-- Write one output commitment into an empty slot. -/
def insertOutput (root commitment : Base) (merklePath : Vector Base 160) : Circuit Base :=
  if commitment ≠ 0 then do
    validateNull poseidon (toLeBits commitment) merklePath root
    pure (getMerkleRoot poseidon commitment (toLeBits commitment) merklePath)
  else
    pure root

/-- Apply the commitments of a transaction that is not padding. -/
def applyCommitments (root : Base) (proof : AggUtxoProofInput) : Circuit Base :=
  if proof.utxoKind ≠ 0 then do
    let root ← removeInput poseidon root (proof.inputCommitments.get 0) (proof.inputMerklePaths.get 0)
    let root ← removeInput poseidon root (proof.inputCommitments.get 1) (proof.inputMerklePaths.get 1)
    let root ← insertOutput poseidon root (proof.outputCommitments.get 0) (proof.outputMerklePaths.get 0)
    insertOutput poseidon root (proof.outputCommitments.get 1) (proof.outputMerklePaths.get 1)
  else
    pure root

end Paths

/-! ## Public messages -/

/-- The message words of one transaction, zero where its kind has none. -/
structure Fields where
  noteKind : Base := 0
  value : Base := 0
  hash : Base := 0
  burnAddr : Base := 0
  deriving DecidableEq, Repr

/-- A word of the messages, if the index is inside. -/
def readMessage (messages : Vector Base 15) (index : Nat) : Circuit Base :=
  match messages[index]? with
  | some word => .ok word
  | none => .error "Index out of bounds"

/-- The proof has words among the messages. -/
def isProofKindMintOrBurn (utxoKind : Base) : Bool := utxoKind = 2 ∨ utxoKind = 3 ∨ utxoKind = 4

/-- The proof is a burn of one of the two kinds. -/
def isBurn (utxoKind : Base) : Bool := utxoKind = 3 ∨ utxoKind = 4

/-- Read the words that mints and burns share. -/
def readMintOrBurn (messages : Vector Base 15) (utxoKind : Base) (index : Nat) :
    Circuit (Fields × Nat) :=
  if isProofKindMintOrBurn utxoKind then do
    let kind ← readMessage messages index
    check (kind = utxoKind) "proof 'kind' must match message"
    let noteKind ← readMessage messages (index + 1)
    let value ← readMessage messages (index + 2)
    let hash ← readMessage messages (index + 3)
    pure (⟨noteKind, value, hash, 0⟩, index + 4)
  else
    pure ({}, index)

/-- Read the address word of a burn. -/
def readBurnAddr (messages : Vector Base 15) (utxoKind : Base) (fields : Fields) (index : Nat) :
    Circuit (Fields × Nat) :=
  if isBurn utxoKind then do
    let burnAddr ← readMessage messages index
    pure ({ fields with burnAddr }, index + 1)
  else
    pure (fields, index)

/-- The words of a proof, and the index behind them. -/
def readFields (messages : Vector Base 15) (utxoKind : Base) (index : Nat) :
    Circuit (Fields × Nat) := do
  let (fields, index) ← readMintOrBurn messages utxoKind index
  readBurnAddr messages utxoKind fields index

/-- The public inputs rebuilt for one transaction. -/
def rebuild (proof : AggUtxoProofInput) (fields : Fields) : Vector Base 9 :=
  #v[proof.inputCommitments.get 0, proof.inputCommitments.get 1,
    proof.outputCommitments.get 0, proof.outputCommitments.get 1, proof.utxoKind,
    fields.noteKind, fields.value, fields.hash, fields.burnAddr]

theorem rebuild_eq_append (proof : AggUtxoProofInput) (fields : Fields) :
    rebuild proof fields =
      #v[proof.inputCommitments.get 0, proof.inputCommitments.get 1,
        proof.outputCommitments.get 0, proof.outputCommitments.get 1] ++
      #v[proof.utxoKind, fields.noteKind, fields.value, fields.hash, fields.burnAddr] :=
  rfl

/-! ## The circuit -/

/-- The variables of the loop over the three transactions. -/
structure Loop where
  root : Base
  utxoHashes : Vector Base 3
  messagesIndex : Nat
  firstPublicInputs : Vector Base 9
  deriving DecidableEq, Repr

variable (poseidon : Poseidon) (verifyProof : VerifyProof)

/-- The hash of the commitments of a proof. -/
def utxoHash (proof : AggUtxoProofInput) : Base :=
  poseidon [proof.inputCommitments.get 0, proof.inputCommitments.get 1,
    proof.outputCommitments.get 0, proof.outputCommitments.get 1]

/-- One proof of the loop: its words, its verification, and the root after it. -/
def iteration (witness : Witness) (loop : Loop) (index : Fin 3) : Circuit Loop := do
  let proof := witness.proofs.get index
  let (fields, messagesIndex) ←
    readFields witness.messages proof.utxoKind loop.messagesIndex
  let publicInputs := rebuild proof fields
  check (index = 0 → proof.utxoKind ≠ 0) "first proof cannot be a padding proof"
  let firstPublicInputs := if index = 0 then publicInputs else loop.firstPublicInputs
  -- A padding transaction repeats the verification of the first one.
  check
    (verifyProof witness.verificationKey
      (if proof.utxoKind = 0 then (witness.proofs.get 0).proof else proof.proof)
      (if proof.utxoKind = 0 then firstPublicInputs else publicInputs).toList
      witness.verificationKeyHash 7 = true)
    "proof verification failed"
  let root ← applyCommitments poseidon loop.root proof
  pure ⟨root, loop.utxoHashes.set index (utxoHash poseidon proof) index.isLt, messagesIndex,
    firstPublicInputs⟩

/-- Before the first proof. -/
def start (oldRoot : Base) : Loop :=
  ⟨oldRoot, Vector.replicate 3 0, 0, Vector.replicate 9 0⟩

/-- The circuit: three proofs in turn lead from the old root to the new one, and no word is
left over. -/
def main (witness : Witness) : Circuit Unit := do
  check (witness.verificationKeyHash = UTXO_VERIFICATION_KEY_HASH) "only utxo proof allowed"
  let loop ← (List.finRange 3).foldlM (iteration poseidon verifyProof witness)
    (start witness.oldRoot)
  check (∀ index : Fin 15, loop.messagesIndex ≤ index → witness.messages.get index = 0)
    "Message is not zero"
  check (loop.root = witness.newRoot) "New root is not valid"
  check (witness.commitHash = poseidon loop.utxoHashes.toList) "Failed assertion"

/-! ## What the cursor reads -/

/-- The words a transaction occupies in the public messages. -/
def fieldWords (utxoKind : Base) (fields : Fields) : List Base :=
  if utxoKind = 2 then [utxoKind, fields.noteKind, fields.value, fields.hash]
  else if utxoKind = 3 ∨ utxoKind = 4 then
    [utxoKind, fields.noteKind, fields.value, fields.hash, fields.burnAddr]
  else []

/-- The words that the kind has no place for are zero. -/
def Fits (utxoKind : Base) (fields : Fields) : Prop :=
  (utxoKind ≠ 3 ∧ utxoKind ≠ 4 → fields.burnAddr = 0) ∧
    (utxoKind ≠ 2 ∧ utxoKind ≠ 3 ∧ utxoKind ≠ 4 →
      fields.noteKind = 0 ∧ fields.value = 0 ∧ fields.hash = 0)

/-- The message the contract settles for a transaction, if it has one. -/
def settledMessages (utxoKind : Base) (fields : Fields) : List Rollup.Message :=
  let noteKind := Element.fromBase fields.noteKind
  let value := Element.fromBase fields.value
  let hash := Element.fromBase fields.hash
  if utxoKind = 2 then [.mint noteKind value hash]
  else if utxoKind = 3 then [.burn false noteKind value hash (.fromBase fields.burnAddr)]
  else if utxoKind = 4 then [.burn true noteKind value hash (.fromBase fields.burnAddr)]
  else []

@[simp]
theorem fieldWords_map_fromBase (utxoKind : Base) (fields : Fields) :
    (fieldWords utxoKind fields).map Element.fromBase =
      (settledMessages utxoKind fields).flatMap Rollup.Message.words := by
  unfold fieldWords settledMessages
  by_cases mint : utxoKind = 2
  · subst mint; rfl
  by_cases burn : utxoKind = 3
  · subst burn; rfl
  by_cases crossChain : utxoKind = 4
  · subst crossChain; rfl
  simp [mint, burn, crossChain]

theorem readMessage_eq_ok_iff {messages : Vector Base 15} {index : Nat} {word : Base} :
    readMessage messages index = .ok word ↔
      messages.toList.drop index = word :: messages.toList.drop (index + 1) := by
  have lookup : messages[index]? = messages.toList[index]? := by simp
  rw [readMessage, lookup]
  constructor
  · intro read
    cases found : messages.toList[index]? with
    | none => simp [found] at read
    | some actual =>
        obtain rfl : actual = word := by simpa [found] using read
        obtain ⟨indexLt, rfl⟩ := List.getElem?_eq_some_iff.mp found
        exact List.drop_eq_getElem_cons indexLt
  · intro dropped
    have found : messages.toList[index]? = some word := by
      rw [← List.head?_drop, dropped, List.head?_cons]
    rw [found]

theorem drop_succ_of_drop_eq {words rest : List Base} {index : Nat} {word : Base}
    (dropped : words.drop index = word :: rest) : words.drop (index + 1) = rest := by
  rw [← List.tail_drop, dropped, List.tail_cons]

/-- Four reads in a row see four consecutive words. -/
theorem readMessage_four_iff {messages : Vector Base 15} {index : Nat}
    {first second third fourth : Base} :
    (readMessage messages index = .ok first ∧ readMessage messages (index + 1) = .ok second ∧
        readMessage messages (index + 2) = .ok third ∧
        readMessage messages (index + 3) = .ok fourth) ↔
      messages.toList.drop index =
        first :: second :: third :: fourth :: messages.toList.drop (index + 4) := by
  simp only [readMessage_eq_ok_iff]
  constructor
  · rintro ⟨read0, read1, read2, read3⟩
    rw [read0, read1, read2, read3]
  · intro read0
    have read1 := drop_succ_of_drop_eq read0
    have read2 := drop_succ_of_drop_eq read1
    have read3 := drop_succ_of_drop_eq read2
    exact ⟨by rw [read1, read0], by rw [read2, read1], by rw [read3, read2], read3⟩

/-- What a mint or burn reads: its kind and three words, and the address word
exactly for a burn. -/
theorem readFields_mintOrBurn {messages : Vector Base 15} {utxoKind : Base} {index next : Nat}
    {fields : Fields} (mintOrBurn : utxoKind = 2 ∨ utxoKind = 3 ∨ utxoKind = 4) :
    readFields messages utxoKind index = .ok (fields, next) ↔
      messages.toList.drop index =
          utxoKind :: fields.noteKind :: fields.value :: fields.hash ::
            messages.toList.drop (index + 4) ∧
        if utxoKind = 2 then next = index + 4 ∧ fields.burnAddr = 0
        else next = index + 5 ∧
          messages.toList.drop (index + 4) = fields.burnAddr :: messages.toList.drop next := by
  obtain ⟨noteKind, value, hash, burnAddr⟩ := fields
  rw [← readMessage_four_iff]
  rcases mintOrBurn with rfl | burn
  · simp [readFields, readMintOrBurn, readBurnAddr, isProofKindMintOrBurn, isBurn]
    tauto
  · have notMint : utxoKind ≠ 2 := by rcases burn with rfl | rfl <;> decide
    simp [readFields, readMintOrBurn, readBurnAddr, isProofKindMintOrBurn, isBurn, burn, notMint,
      readMessage_eq_ok_iff]
    constructor
    · rintro ⟨read0, read1, read2, read3, read4, rfl⟩
      exact ⟨⟨read0, read1, read2, read3⟩, rfl, read4⟩
    · rintro ⟨⟨read0, read1, read2, read3⟩, rfl, read4⟩
      exact ⟨read0, read1, read2, read3, read4, rfl⟩

/-- The cursor reads the words of a transaction off the front of the remaining
messages and stops right behind them. -/
theorem readFields_eq_ok_iff {messages : Vector Base 15} {utxoKind : Base} {index next : Nat}
    {fields : Fields} :
    readFields messages utxoKind index = .ok (fields, next) ↔
      messages.toList.drop index = fieldWords utxoKind fields ++ messages.toList.drop next ∧
        next = index + (fieldWords utxoKind fields).length ∧ Fits utxoKind fields := by
  by_cases mint : utxoKind = 2
  · rw [readFields_mintOrBurn (Or.inl mint)]
    simp only [fieldWords, Fits, mint, if_true, List.length_cons, List.length_nil,
      List.cons_append, List.nil_append]
    constructor
    · rintro ⟨read, rfl, burnAddrEq⟩
      exact ⟨read, rfl, fun _ => burnAddrEq, fun other => absurd rfl other.1⟩
    · rintro ⟨read, rfl, burnAddrEq, _⟩
      exact ⟨read, rfl, burnAddrEq (by decide)⟩
  by_cases burn : utxoKind = 3 ∨ utxoKind = 4
  · have fits : Fits utxoKind fields := by
      rcases burn with rfl | rfl <;> simp [Fits]
    rw [readFields_mintOrBurn (Or.inr burn)]
    simp only [fieldWords, fits, mint, burn, if_true, if_false, List.length_cons,
      List.length_nil, List.cons_append, List.nil_append, and_true]
    constructor
    · rintro ⟨read, rfl, readAddr⟩
      exact ⟨by rw [read, readAddr], rfl⟩
    · rintro ⟨read, rfl⟩
      have rest := drop_succ_of_drop_eq (drop_succ_of_drop_eq
        (drop_succ_of_drop_eq (drop_succ_of_drop_eq read)))
      exact ⟨by rw [read, rest], rfl, rest⟩
  · have notBurn := not_or.mp burn
    obtain ⟨noteKind, value, hash, burnAddr⟩ := fields
    simp [readFields, readMintOrBurn, readBurnAddr, isProofKindMintOrBurn, isBurn, fieldWords,
      Fits, mint, notBurn.1, notBurn.2]
    constructor
    · rintro ⟨⟨rfl, rfl, rfl, rfl⟩, rfl⟩
      simp
    · rintro ⟨_, rfl, rfl, rfl, rfl, rfl⟩
      simp

/-! ## What an accepted witness satisfies -/

/-- The cursor position at which the words of a transaction start. -/
def messagesIndexOf (witness : Witness) (index : Fin 3) : Nat :=
  (((List.finRange 3).take index).map fun before =>
    (fieldWords (witness.proofs.get before).utxoKind {}).length).sum

/-- The message words read for a transaction. -/
def fieldsOf (witness : Witness) (index : Fin 3) : Fields :=
  match readFields witness.messages (witness.proofs.get index).utxoKind
    (messagesIndexOf witness index) with
  | .ok (fields, _) => fields
  | .error _ => {}

/-- The public inputs rebuilt for a transaction. -/
def rebuilt (witness : Witness) (index : Fin 3) : Vector Base 9 :=
  rebuild (witness.proofs.get index) (fieldsOf witness index)

theorem fieldWords_length (utxoKind : Base) (fields : Fields) :
    (fieldWords utxoKind fields).length = (fieldWords utxoKind {}).length := by
  unfold fieldWords
  split_ifs <;> rfl

variable {poseidon} {verifyProof}

/-- The first public inputs known after an iteration. -/
def firstInputs (witness : Witness) (loop : Loop) (index : Fin 3) (fields : Fields) :
    Vector Base 9 :=
  if index = 0 then rebuild (witness.proofs.get index) fields else loop.firstPublicInputs

theorem iteration_eq_ok_iff {witness : Witness} {loop next : Loop} {index : Fin 3} :
    iteration poseidon verifyProof witness loop index = .ok next ↔
      ∃ fields messagesIndex root,
        readFields witness.messages (witness.proofs.get index).utxoKind loop.messagesIndex =
            .ok (fields, messagesIndex) ∧
          (index = 0 → (witness.proofs.get index).utxoKind ≠ 0) ∧
          verifyProof witness.verificationKey
            (if (witness.proofs.get index).utxoKind = 0 then (witness.proofs.get 0).proof
              else (witness.proofs.get index).proof)
            (if (witness.proofs.get index).utxoKind = 0 then firstInputs witness loop index fields
              else rebuild (witness.proofs.get index) fields).toList
            witness.verificationKeyHash 7 = true ∧
          applyCommitments poseidon loop.root (witness.proofs.get index) = .ok root ∧
          next = ⟨root, loop.utxoHashes.set index (utxoHash poseidon (witness.proofs.get index)) index.isLt,
            messagesIndex, firstInputs witness loop index fields⟩ := by
  simp only [iteration, bind_eq_ok_iff, check_eq_ok_iff, pure_eq_ok_iff, Prod.exists, firstInputs]
  constructor
  · rintro ⟨fields, messagesIndex, read, _, notPadding, _, verified, root, applied, rfl⟩
    exact ⟨fields, messagesIndex, root, read, notPadding, verified, applied, rfl⟩
  · rintro ⟨fields, messagesIndex, root, read, notPadding, verified, applied, rfl⟩
    exact ⟨fields, messagesIndex, read, ⟨⟩, notPadding, ⟨⟩, verified, root, applied, rfl⟩

/-- A padding transaction repeats the verification of the first one and changes
neither the root nor the cursor. -/
theorem iteration_padding {witness : Witness} {loop : Loop} {index : Fin 3}
    (padding : (witness.proofs.get index).utxoKind = 0) (notFirst : index ≠ 0)
    (verified : verifyProof witness.verificationKey (witness.proofs.get 0).proof
      loop.firstPublicInputs.toList witness.verificationKeyHash 7 = true) :
    iteration poseidon verifyProof witness loop index =
      .ok { loop with
        utxoHashes := loop.utxoHashes.set index (utxoHash poseidon (witness.proofs.get index)) index.isLt } := by
  apply iteration_eq_ok_iff.mpr
  refine ⟨{}, loop.messagesIndex, loop.root, ?_, fun first => absurd first notFirst, ?_, ?_, ?_⟩
  · rw [padding]
    rfl
  · rw [if_pos padding, if_pos padding, firstInputs, if_neg notFirst]
    exact verified
  · rw [applyCommitments, if_neg (not_not_intro padding)]
    rfl
  · rw [firstInputs, if_neg notFirst]

/-- What later proofs use of a successful iteration. -/
theorem iteration_eq_ok {witness : Witness} {loop next : Loop} {index : Fin 3}
    (accepted : iteration poseidon verifyProof witness loop index = .ok next) :
    ∃ fields, readFields witness.messages (witness.proofs.get index).utxoKind loop.messagesIndex =
        .ok (fields, next.messagesIndex) ∧
      (index = 0 → (witness.proofs.get index).utxoKind ≠ 0) ∧
      ((witness.proofs.get index).utxoKind ≠ 0 →
        verifyProof witness.verificationKey (witness.proofs.get index).proof
          (rebuild (witness.proofs.get index) fields).toList witness.verificationKeyHash 7 = true) ∧
      applyCommitments poseidon loop.root (witness.proofs.get index) = .ok next.root ∧
      next.utxoHashes =
        loop.utxoHashes.set index (utxoHash poseidon (witness.proofs.get index)) index.isLt := by
  obtain ⟨fields, messagesIndex, root, read, notPadding, verified, applied, rfl⟩ :=
    iteration_eq_ok_iff.mp accepted
  refine ⟨fields, read, notPadding, fun real => ?_, applied, rfl⟩
  simpa only [real, if_false] using verified

/-- Everything the circuit asserts of its arguments. -/
structure Accepted (poseidon : Poseidon) (verifyProof : VerifyProof) (witness : Witness) :
    Prop where
  keyHash : witness.verificationKeyHash = UTXO_VERIFICATION_KEY_HASH
  first_ne_zero : (witness.proofs.get 0).utxoKind ≠ 0
  fits : ∀ index : Fin 3, Fits (witness.proofs.get index).utxoKind (fieldsOf witness index)
  verified : ∀ index : Fin 3, (witness.proofs.get index).utxoKind ≠ 0 →
    verifyProof witness.verificationKey (witness.proofs.get index).proof
      (rebuilt witness index).toList UTXO_VERIFICATION_KEY_HASH 7 = true
  words : ∃ count, witness.messages.toList =
    (List.finRange 3).flatMap
        (fun index => fieldWords (witness.proofs.get index).utxoKind (fieldsOf witness index)) ++
      List.replicate count 0
  root : (List.finRange 3).foldlM
    (fun root index => applyCommitments poseidon root (witness.proofs.get index)) witness.oldRoot =
      .ok witness.newRoot
  commitHash : witness.commitHash =
    poseidon ((List.finRange 3).map fun index => utxoHash poseidon (witness.proofs.get index))

/-- The words behind the cursor are zero. -/
theorem drop_eq_replicate {messages : Vector Base 15} {index : Nat}
    (zero : ∀ position : Fin 15, index ≤ position → messages.get position = 0) :
    ∃ count, messages.toList.drop index = List.replicate count 0 := by
  refine ⟨_, List.eq_replicate_of_mem fun word mem => ?_⟩
  obtain ⟨offset, offsetLt, rfl⟩ := List.mem_iff_getElem.mp mem
  have positionLt : index + offset < 15 := by
    have := offsetLt
    simp at this
    omega
  simpa [get_eq_getElem] using zero ⟨index + offset, positionLt⟩ (Nat.le_add_right index offset)

@[simp]
theorem main_eq_ok_iff {witness : Witness} {done : Unit} :
    main poseidon verifyProof witness = .ok done ↔
      witness.verificationKeyHash = UTXO_VERIFICATION_KEY_HASH ∧
        ∃ loop, (List.finRange 3).foldlM (iteration poseidon verifyProof witness)
            (start witness.oldRoot) = .ok loop ∧
          (∀ index : Fin 15, loop.messagesIndex ≤ index → witness.messages.get index = 0) ∧
          loop.root = witness.newRoot ∧
          witness.commitHash = poseidon loop.utxoHashes.toList := by
  simp only [main, bind_eq_ok_iff, check_eq_ok_iff, exists_const]

theorem main_eq_ok {witness : Witness} (accepted : main poseidon verifyProof witness = .ok ()) :
    Accepted poseidon verifyProof witness := by
  have finRangeEq : List.finRange 3 = [0, 1, 2] := by decide
  obtain ⟨keyHash, loop, looped, zero, rootEq, commitHash⟩ := main_eq_ok_iff.mp accepted
  simp only [finRangeEq, List.foldlM_cons, List.foldlM_nil, bind_eq_ok_iff,
    pure_eq_ok_iff] at looped
  obtain ⟨loop1, first, loop2, second, loop3, third, rfl⟩ := looped
  obtain ⟨fields0, read0, notPadding, verified0, applied0, hashes0⟩ := iteration_eq_ok first
  obtain ⟨fields1, read1, _, verified1, applied1, hashes1⟩ := iteration_eq_ok second
  obtain ⟨fields2, read2, _, verified2, applied2, hashes2⟩ := iteration_eq_ok third
  obtain ⟨words0, next0, fits0⟩ := readFields_eq_ok_iff.mp read0
  obtain ⟨words1, next1, fits1⟩ := readFields_eq_ok_iff.mp read1
  obtain ⟨words2, _, fits2⟩ := readFields_eq_ok_iff.mp read2
  obtain ⟨count, rest⟩ := drop_eq_replicate zero
  rw [fieldWords_length] at next0 next1
  have position0 : messagesIndexOf witness 0 = (start witness.oldRoot).messagesIndex := rfl
  have position1 : messagesIndexOf witness 1 = loop1.messagesIndex := by
    rw [next0]
    exact (Nat.zero_add _).symm
  have position2 : messagesIndexOf witness 2 = loop2.messagesIndex := by
    rw [next1, next0, Nat.add_assoc]
    exact (Nat.zero_add _).symm
  obtain rfl : fieldsOf witness 0 = fields0 := by rw [fieldsOf, position0, read0]
  obtain rfl : fieldsOf witness 1 = fields1 := by rw [fieldsOf, position1, read1]
  obtain rfl : fieldsOf witness 2 = fields2 := by rw [fieldsOf, position2, read2]
  rw [keyHash] at verified0 verified1 verified2
  refine ⟨keyHash, notPadding rfl, ?_, ?_, ⟨count, ?_⟩, ?_, ?_⟩
  · intro index
    fin_cases index
    · exact fits0
    · exact fits1
    · exact fits2
  · intro index
    fin_cases index
    · exact verified0
    · exact verified1
    · exact verified2
  · rw [finRangeEq]
    simp only [List.flatMap_cons, List.flatMap_nil, List.append_nil, List.append_assoc]
    rw [← rest]
    exact (words0.trans (congrArg _ (words1.trans (congrArg _ words2))))
  · rw [finRangeEq]
    simp only [start] at applied0
    simp only [List.foldlM_cons, List.foldlM_nil]
    rw [applied0, ok_bind, applied1, ok_bind, applied2, ok_bind, rootEq]
    rfl
  · rw [commitHash, hashes2, hashes1, hashes0, finRangeEq]
    rfl

/-- The messages the contract settles for the three transactions. -/
def settled (witness : Witness) : List Rollup.Message :=
  (List.finRange 3).flatMap fun index =>
    settledMessages (witness.proofs.get index).utxoKind (fieldsOf witness index)

/-- The public messages frame exactly the mints and burns among the verified
transactions, in order. -/
theorem Accepted.frames {witness : Witness}
    (accepted : Accepted poseidon verifyProof witness) :
    Rollup.Frames (Rollup.streamWords witness.messages.toList) (settled witness) := by
  obtain ⟨count, wordsEq⟩ := accepted.words
  refine ⟨count, ?_⟩
  rw [wordsEq, Rollup.streamWords, List.map_append, List.map_replicate, List.map_flatMap, settled,
    List.flatMap_assoc]
  simp only [fieldWords_map_fromBase]
  rfl

end Ciphera.Noir.AggUtxo
