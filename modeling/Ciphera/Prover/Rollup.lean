import Ciphera.Node.Block
import Ciphera.Rollup.Validators

/-!
# Submission of a block

What the prover submits for a block: its root, its height, the hash of its
header, and as signatures the approvals in the header of the next block.
-/

namespace Ciphera.Prover

open Ciphera.Node (Block)

/-- What is stored and sent for a proved block. -/
structure RollupInput where
  oldRoot : Element
  newRoot : Element
  height : Nat
  otherHash : CryptoHash
  signatures : List Node.Signature
  deriving DecidableEq, Repr

/-- The submission of a block, given the root before it; the proof must lead to
the root of the block. -/
def rollupInput (keccak : Keccak) (oldRoot : Element) (commit nextCommit : Block) :
    RollupInput where
  oldRoot := oldRoot
  newRoot := commit.content.state.rootHash
  height := commit.content.header.height
  otherHash := commit.content.headerHash keccak
  signatures := nextCommit.content.header.approvals

/-- A signature in the form of the contract: the recovery id counts from 27. -/
def contractSignature (signature : Node.Signature) : Rollup.Signature where
  r := signature.r
  s := signature.s
  v := (if signature.v < 27 then signature.v + 27 else signature.v).setWidth 256

end Ciphera.Prover
