import Ciphera.Lib.Delivery
import Ciphera.Prover.Stock

/-!
# The stream of commits

`commit_stream` registers a listener, waits for the first commit, and then yields the
stored blocks before it, the commit itself, and whatever the listener hears later.
The blocks are committed meanwhile, and each commit is three steps: the block is
written to the store, then to the tree, and then the listeners are told.  However
these steps fall between the steps of the stream, it yields every committed block
from its starting height on, once and in order.
-/

namespace Ciphera.Node

open Ciphera.Lib Ciphera.Noir Ciphera.Prover Ciphera.Smirk Ciphera.Zk

/-- How far `commit_stream` has come.  A stream that flows has blocks from before it
heard the later ones, and has yielded some. -/
inductive Stage
  | registered
  | received (firstCommit : Block)
  | flowing (before yielded : List Block)

/-- A stream of commits, with the blocks its channel has got and it has not taken.  It also
knows how many blocks were committed when it was registered. -/
structure CommitStream where
  fromHeight : Option Nat
  committedBefore : Nat
  channel : List Block := []
  stage : Stage := .registered

namespace CommitStream

/-- The listener of the stream is told of a commit. -/
def send (block : Block) (stream : CommitStream) : CommitStream :=
  { stream with channel := stream.channel ++ [block] }

/-- The stored blocks that come before the first commit. -/
def blocksBefore (store : Store) (stream : CommitStream) (firstCommit : Block) : List Block :=
  match stream.fromHeight with
  | some fromHeight => fetchBlocks store fromHeight (heightOf firstCommit)
  | none => []

/-- The filter of the stream. -/
def keeps (stream : CommitStream) (block : Block) : Bool :=
  match stream.fromHeight with
  | some fromHeight => fromHeight ≤ heightOf block
  | none => true

/-- The next step of a stream: it takes the first commit from its channel, reads the
stored blocks, or takes an item, which it yields unless the filter drops it.  A stream
without an item waits. -/
def advance (store : Store) (stream : CommitStream) : Option CommitStream :=
  match stream.stage, stream.channel with
  | .registered, [] => none
  | .registered, firstCommit :: channel =>
      some { stream with channel, stage := .received firstCommit }
  | .received firstCommit, _ =>
      some { stream with
        stage := .flowing (stream.blocksBefore store firstCommit ++ [firstCommit]) [] }
  | .flowing (block :: before) yielded, _ =>
      some { stream with stage := .flowing before (yielded ++ [block].filter stream.keeps) }
  | .flowing [] yielded, block :: channel =>
      some { stream with channel, stage := .flowing [] (yielded ++ [block].filter stream.keeps) }
  | .flowing [] _, [] => none

/-- What the stream has yielded. -/
def yielded (stream : CommitStream) : List Block :=
  match stream.stage with
  | .flowing _ yielded => yielded
  | _ => []

/-- The first commit, as long as the stored blocks have not been read. -/
def firstCommit? (stream : CommitStream) : Option Block :=
  match stream.stage with
  | .registered => stream.channel.head?
  | .received firstCommit => some firstCommit
  | .flowing _ _ => none

/-- A commit has been announced since the stream was registered. -/
def Heard (stream : CommitStream) : Prop := stream.stage ≠ .registered ∨ stream.channel ≠ []

/-- The items that the stream takes before it has to wait. -/
def items (store : Store) (stream : CommitStream) : List Block :=
  match stream.stage, stream.channel with
  | .registered, [] => []
  | .registered, firstCommit :: channel =>
      stream.blocksBefore store firstCommit ++ firstCommit :: channel
  | .received firstCommit, channel =>
      stream.blocksBefore store firstCommit ++ firstCommit :: channel
  | .flowing before _, channel => before ++ channel

/-- What the stream has yielded when it has to wait. -/
def output (store : Store) (stream : CommitStream) : List Block :=
  stream.yielded ++ (stream.items store).filter stream.keeps

end CommitStream

/-- How far `commit_proposal` has come. -/
inductive CommitCall
  | idle
  | stored (block : Block)
  | applied (block : Block)

/-- The block of a call under way. -/
def CommitCall.block? : CommitCall → Option Block
  | .idle => none
  | .stored block => some block
  | .applied block => some block

/-- A node with its streams.  It also knows which blocks it has committed, and which
ones the tree has refused after they were stored. -/
structure StreamingNode where
  chain : Chain
  height : Nat
  call : CommitCall := .idle
  streams : List CommitStream := []
  committed : List Block
  refused : List Block := []

namespace StreamingNode

/-- A node that has just been started on a store. -/
def opened (chain : Chain) (height : Nat) : StreamingNode where
  chain
  height
  committed := chain.store.blocks.toList.map fun entry => entry.2.intoBlock

/-- The steps of `commit_proposal` and of the streams. -/
inductive Event
  | store (block : Block) (commitTime : Nat)
  | apply
  | refuse
  | notify
  | register (fromHeight : Option Nat)
  | advance
  | drop

/-- One step of the node or of a stream.  The blocks are committed one after the other
at consecutive heights.  After a block that the tree refuses, a validator goes on at the
same height and another node at the next one. -/
inductive Step (poseidon : Poseidon) (keccak : Keccak) (tempNoir : Bool) :
    StreamingNode → Event → StreamingNode → Prop
  | store {node : StreamingNode} {block : Block} (commitTime : Nat)
      (isIdle : node.call = .idle) (isNext : heightOf block = node.height + 1)
      (unspent : ∀ inputCommitment ∈ block.content.state.removeLeaves,
        node.chain.notesTree.tree.containsElement inputCommitment = true) :
      Step poseidon keccak tempNoir node (.store block commitTime)
        { node with
          chain := ⟨node.chain.store.set (BlockFormat.indexing poseidon keccak)
            (.v2 block (some commitTime)), node.chain.notesTree⟩
          call := .stored block }
  | apply {node : StreamingNode} {block : Block} {notesTree : PersistentMerkleTree}
      (isStored : node.call = .stored block)
      (applied : applyBlockToTree poseidon tempNoir node.chain.notesTree block.content.state
        block.content.header.height = .ok notesTree) :
      Step poseidon keccak tempNoir node .apply
        { node with chain := ⟨node.chain.store, notesTree⟩, call := .applied block }
  | refuse {node : StreamingNode} {block : Block} {stop : Stop Error} {height : Nat}
      (isStored : node.call = .stored block)
      (refused : applyBlockToTree poseidon tempNoir node.chain.notesTree block.content.state
        block.content.header.height = .error stop)
      (goesOn : height = node.height ∨ height = heightOf block) :
      Step poseidon keccak tempNoir node .refuse
        { node with height, call := .idle, refused := node.refused ++ [block] }
  | notify {node : StreamingNode} {block : Block} (isApplied : node.call = .applied block) :
      Step poseidon keccak tempNoir node .notify
        { node with
          height := heightOf block
          call := .idle
          streams := node.streams.map (CommitStream.send block)
          committed := node.committed ++ [block] }
  | register {node : StreamingNode} (fromHeight : Option Nat) :
      Step poseidon keccak tempNoir node (.register fromHeight)
        { node with
          streams := node.streams ++ [{ fromHeight, committedBefore := node.committed.length }] }
  | advance {node : StreamingNode} {before after : List CommitStream}
      {stream next : CommitStream} (isOpen : node.streams = before ++ stream :: after)
      (advances : stream.advance node.chain.store = some next) :
      Step poseidon keccak tempNoir node .advance
        { node with streams := before ++ next :: after }
  | drop {node : StreamingNode} {before after : List CommitStream} {stream : CommitStream}
      (isOpen : node.streams = before ++ stream :: after) :
      Step poseidon keccak tempNoir node .drop { node with streams := before ++ after }

end StreamingNode

/-! ## One stream -/

namespace CommitStream

variable {store : Store} {stream next : CommitStream} {block : Block}

theorem keeps_of_fromHeight {fromHeight : Nat} (startsAt : stream.fromHeight = some fromHeight) :
    stream.keeps = fun block => decide (fromHeight ≤ heightOf block) := by
  funext block
  simp only [keeps, startsAt]

@[simp]
theorem take_item (keeps : Block → Bool) (yielded : List Block) (block : Block)
    (rest : List Block) :
    yielded ++ [block].filter keeps ++ rest.filter keeps =
      yielded ++ (block :: rest).filter keeps := by
  rw [List.append_assoc, ← List.filter_append, List.singleton_append]

/-- A bound on the steps of the stream before it has to wait. -/
def stepsLeft (store : Store) (stream : CommitStream) : Nat :=
  (stream.items store).length +
    match stream.stage with
    | .registered => 2
    | .received _ => 1
    | .flowing _ _ => 0

/-- What a step of the stream does: it moves what the stream yields from one place to
another, and keeps the first commit until the stored blocks are read. -/
structure Advances (store : Store) (stream next : CommitStream) : Prop where
  fromHeight_eq : next.fromHeight = stream.fromHeight
  committedBefore_eq : next.committedBefore = stream.committedBefore
  output_eq : next.output store = stream.output store
  heard : stream.Heard
  stillHeard : next.Heard
  firstCommit : ∀ firstCommit, next.firstCommit? = some firstCommit →
    stream.firstCommit? = some firstCommit
  fewer : next.stepsLeft store < stream.stepsLeft store

theorem advances_of_advance (advances : stream.advance store = some next) :
    Advances store stream next := by
  rcases stream with ⟨fromHeight, committedBefore, channel, stage⟩
  cases stage with
  | registered =>
      cases channel with
      | nil => cases advances
      | cons firstCommit channel =>
          rcases Option.some.inj advances with rfl
          exact ⟨rfl, rfl, rfl, .inr (List.cons_ne_nil _ _), .inl Stage.noConfusion,
            fun _ => id, Nat.lt_succ_self _⟩
  | received firstCommit =>
      rcases Option.some.inj advances with rfl
      constructor
      · rfl
      · rfl
      · simp only [output, yielded, items, List.nil_append, List.append_assoc,
          List.singleton_append]
        rfl
      · exact .inl Stage.noConfusion
      · exact .inl Stage.noConfusion
      · intro other isFirst
        cases isFirst
      · simp [stepsLeft, items, blocksBefore]
  | flowing before yielded =>
      cases before with
      | nil =>
          cases channel with
          | nil => cases advances
          | cons block channel =>
              rcases Option.some.inj advances with rfl
              exact ⟨rfl, rfl, take_item _ yielded block channel, .inl Stage.noConfusion,
                .inl Stage.noConfusion, (fun _ isFirst => nomatch isFirst), Nat.lt_succ_self _⟩
      | cons block before =>
          rcases Option.some.inj advances with rfl
          exact ⟨rfl, rfl, take_item _ yielded block (before ++ channel), .inl Stage.noConfusion,
            .inl Stage.noConfusion, (fun _ isFirst => nomatch isFirst), Nat.lt_succ_self _⟩

/-- A stream that has to wait has yielded everything. -/
theorem output_of_waits (waits : stream.advance store = none) :
    stream.output store = stream.yielded := by
  rcases stream with ⟨fromHeight, committedBefore, channel, stage⟩
  cases stage with
  | registered =>
      cases channel with
      | nil => rfl
      | cons firstCommit channel => cases waits
  | received firstCommit => cases waits
  | flowing before yielded =>
      cases before with
      | nil =>
          cases channel with
          | nil => exact List.append_nil yielded
          | cons block channel => cases waits
      | cons block before => cases waits

/-- Every listener hears of a commit that is announced. -/
theorem heard_send (stream : CommitStream) (block : Block) : (stream.send block).Heard :=
  .inr (List.append_ne_nil_of_right_ne_nil _ (List.cons_ne_nil _ _))

/-- A stream that has heard a commit yields the later ones after all others. -/
theorem output_send (heard : stream.Heard) (block : Block) :
    (stream.send block).output store = stream.output store ++ [block].filter stream.keeps := by
  rw [output, output, List.append_assoc, ← List.filter_append]
  have itemsEq : (stream.send block).items store = stream.items store ++ [block] := by
    rcases stream with ⟨fromHeight, committedBefore, channel, stage⟩
    cases stage with
    | registered =>
        cases channel with
        | nil => exact absurd heard (by simp [Heard])
        | cons firstCommit channel => simp [send, items, blocksBefore]
    | received firstCommit => simp [send, items, blocksBefore]
    | flowing before yielded => simp [send, items]
  rw [itemsEq]
  rfl

/-- A stream that hears its first commit yields the stored blocks before it. -/
theorem output_first (silent : ¬stream.Heard) (block : Block) :
    (stream.send block).output store =
      (stream.blocksBefore store block ++ [block]).filter stream.keeps := by
  rcases stream with ⟨fromHeight, committedBefore, channel, stage⟩
  simp only [Heard, ne_eq, not_or, not_not] at silent
  rcases silent with ⟨rfl, rfl⟩
  rfl

theorem firstCommit_send {firstCommit : Block}
    (isFirst : (stream.send block).firstCommit? = some firstCommit) :
    stream.firstCommit? = some firstCommit ∨ firstCommit = block := by
  rcases stream with ⟨fromHeight, committedBefore, channel, stage⟩
  cases stage with
  | registered =>
      cases channel with
      | nil => exact .inr (Option.some.inj isFirst).symm
      | cons other channel => exact .inl isFirst
  | received other => exact .inl isFirst
  | flowing before yielded => exact .inl isFirst

theorem output_of_not_heard (silent : ¬stream.Heard) : stream.output store = [] := by
  rcases stream with ⟨fromHeight, committedBefore, channel, stage⟩
  simp only [Heard, ne_eq, not_or, not_not] at silent
  rcases silent with ⟨rfl, rfl⟩
  rfl

/-- What the stream yields depends on the stored blocks before its first commit only. -/
theorem output_congr {other : Store}
    (same : ∀ firstCommit, stream.firstCommit? = some firstCommit →
      stream.blocksBefore other firstCommit = stream.blocksBefore store firstCommit) :
    stream.output other = stream.output store := by
  have itemsEq : stream.items other = stream.items store := by
    rcases stream with ⟨fromHeight, committedBefore, channel, stage⟩
    cases stage with
    | registered =>
        cases channel with
        | nil => rfl
        | cons firstCommit channel => exact congrArg (· ++ firstCommit :: channel) (same _ rfl)
    | received firstCommit => exact congrArg (· ++ firstCommit :: channel) (same _ rfl)
    | flowing before yielded => rfl
  rw [output, output, itemsEq]

end CommitStream

/-! ## The node and its streams -/

namespace StreamingNode

variable {poseidon : Poseidon} {keccak : Keccak} {tempNoir : Bool}

/-- The first two steps of a call make the `commit_proposal` of the chain. -/
theorem commitProposal_of_steps {node stored applied : StreamingNode} {block : Block}
    {commitTime : Nat}
    (first : Step poseidon keccak tempNoir node (.store block commitTime) stored)
    (second : Step poseidon keccak tempNoir stored .apply applied) :
    node.chain.commitProposal poseidon keccak tempNoir block commitTime =
      (applied.chain, .ok ()) := by
  cases first with
  | store _ isIdle isNext unspent =>
      cases second with
      | apply isStored ok =>
          rcases CommitCall.stored.inj isStored with rfl
          rw [Chain.commitProposal_eq_ok_iff]
          refine ⟨?_, rfl, ok⟩
          intro leaf mem
          exact Tree.containsElement_iff.mp (unspent leaf mem)

section

variable {store : Store} {block : Block} {commitTime : Nat}

@[simp]
theorem blocks_set_self :
    (store.set (BlockFormat.indexing poseidon keccak) (.v2 block (some commitTime))).blocks[
      heightOf block]? = some (.v2 block (some commitTime)) := by
  rw [blocks_set]
  exact if_pos rfl

theorem blocks_set_of_ne {height : Nat} (different : heightOf block ≠ height) :
    (store.set (BlockFormat.indexing poseidon keccak) (.v2 block (some commitTime))).blocks[
      height]? = store.blocks[height]? := by
  rw [blocks_set]
  exact if_neg different

end

/-- The blocks before a height do not change when a block is stored at that height or
above. -/
theorem fetchBlocks_set {store : Store} (filed : Filed store) {block : Block}
    (commitTime fromHeight : Nat) {maxExclusive : Nat} (isAbove : maxExclusive ≤ heightOf block) :
    fetchBlocks (store.set (BlockFormat.indexing poseidon keccak) (.v2 block (some commitTime)))
        fromHeight maxExclusive =
      fetchBlocks store fromHeight maxExclusive := by
  have nodup : ∀ {blocks : List Block}, blocks.Pairwise (heightOf · < heightOf ·) →
      blocks.Nodup := by
    intro blocks sorted
    apply sorted.imp
    intro first second before same
    exact Nat.lt_irrefl (heightOf first) (same ▸ before)
  have filedAfter : Filed (store.set (BlockFormat.indexing poseidon keccak)
      (.v2 block (some commitTime))) := filed.set
  have sortedAfter := sorted_fetchBlocks filedAfter fromHeight maxExclusive
  have sortedBefore := sorted_fetchBlocks filed fromHeight maxExclusive
  apply List.Perm.eq_of_pairwise _ sortedAfter sortedBefore
  · rw [List.perm_ext_iff_of_nodup (nodup sortedAfter) (nodup sortedBefore)]
    intro other
    rw [mem_fetchBlocks_iff, mem_fetchBlocks_iff]
    apply exists_congr
    intro height
    apply exists_congr
    intro format
    apply and_congr_left
    rintro ⟨⟨_, isBelow⟩, _⟩
    have different : heightOf block ≠ height := (isBelow.trans_le isAbove).ne'
    rw [blocks_set_of_ne different]
  · intro first second _ _ before after
    exact absurd before (Nat.lt_asymm after)

/-- What holds of the node in every state.  The call under way is for the next height,
and the store has the committed blocks, the refused ones and the one under way. -/
structure Sound (node : StreamingNode) : Prop where
  filed : Filed node.chain.store
  calling : ∀ block, node.call.block? = some block → heightOf block = node.height + 1
  placed : ∀ block, node.call.block? = some block → ∃ format,
    node.chain.store.blocks[heightOf block]? = some format ∧ format.intoBlock = block
  settled : ∀ block ∈ node.committed, heightOf block ≤ node.height
  kept : ∀ block ∈ node.committed, ∃ format,
    node.chain.store.blocks[heightOf block]? = some format ∧ format.intoBlock = block
  sources : ∀ (height : Nat) (format : BlockFormat),
    node.chain.store.blocks[height]? = some format →
    (format.intoBlock ∈ node.committed ∨ format.intoBlock ∈ node.refused) ∨
      height = node.height + 1

/-- What holds of every stream of the node: it hears of committed blocks only, of the first one
after it was registered, and it delivers what has been committed. -/
structure Delivers (node : StreamingNode) (stream : CommitStream) : Prop where
  first : ∀ firstCommit, stream.firstCommit? = some firstCommit → firstCommit ∈ node.committed
  since : stream.committedBefore ≤ node.committed.length
  heard : stream.committedBefore < node.committed.length → stream.Heard
  delivery : stream.Heard → ∀ fromHeight, stream.fromHeight = some fromHeight →
    Delivery heightOf (· ∈ node.committed) (· ∈ node.refused) fromHeight (node.height + 1)
      (stream.output node.chain.store)

theorem sound_opened {chain : Chain} {height : Nat} (filed : Filed chain.store)
    (within : ∀ stored ∈ chain.store.blocks, stored ≤ height) : Sound (opened chain height) := by
  have committed_iff : ∀ block, block ∈ (opened chain height).committed ↔
      ∃ (stored : Nat) (format : BlockFormat), chain.store.blocks[stored]? = some format ∧
        format.intoBlock = block := by
    intro block
    simp only [opened, List.mem_map, Prod.exists, Std.TreeMap.mem_toList_iff_getElem?_eq_some]
  constructor
  · exact filed
  · intro block isCalled
    cases isCalled
  · intro block isCalled
    cases isCalled
  · intro block mem
    rcases (committed_iff block).mp mem with ⟨stored, format, found, rfl⟩
    rw [heightOf, filed.height_eq _ _ found]
    exact within stored (Std.TreeMap.getElem?_eq_some_iff.mp found).fst
  · intro block mem
    rcases (committed_iff block).mp mem with ⟨stored, format, found, rfl⟩
    refine ⟨format, ?_, rfl⟩
    rw [heightOf, filed.height_eq _ _ found]
    exact found
  · intro stored format found
    exact .inl (.inl ((committed_iff _).mpr ⟨stored, format, found, rfl⟩))

theorem Sound.withStreams {node : StreamingNode} (sound : Sound node)
    (streams : List CommitStream) : Sound { node with streams } where
  filed := sound.filed
  calling := sound.calling
  placed := sound.placed
  settled := sound.settled
  kept := sound.kept
  sources := sound.sources

/-- The block under way is the only one above the node. -/
theorem Sound.eq_of_top {node : StreamingNode} {block : Block} {format : BlockFormat}
    (sound : Sound node) (isCalled : node.call.block? = some block)
    (found : node.chain.store.blocks[node.height + 1]? = some format) :
    format.intoBlock = block := by
  rcases sound.placed block isCalled with ⟨own, ownFound, ownEq⟩
  rw [sound.calling block isCalled, found] at ownFound
  rcases Option.some.inj ownFound with rfl
  exact ownEq

theorem Sound.store {node : StreamingNode} {block : Block} (sound : Sound node)
    (commitTime : Nat) (isNext : heightOf block = node.height + 1) :
    Sound { node with
      chain := ⟨node.chain.store.set (BlockFormat.indexing poseidon keccak)
        (.v2 block (some commitTime)), node.chain.notesTree⟩
      call := .stored block } := by
  have different : ∀ other ∈ node.committed, heightOf block ≠ heightOf other := by
    intro other mem same
    have settled := sound.settled other mem
    rw [← same, isNext] at settled
    exact Nat.not_succ_le_self _ settled
  constructor
  · exact sound.filed.set
  · intro other isCalled
    rcases Option.some.inj isCalled with rfl
    exact isNext
  · intro other isCalled
    rcases Option.some.inj isCalled with rfl
    exact ⟨_, blocks_set_self, rfl⟩
  · exact sound.settled
  · intro other mem
    rw [blocks_set_of_ne (different other mem)]
    exact sound.kept other mem
  · intro height format found
    by_cases same : heightOf block = height
    · exact .inr (same ▸ isNext)
    · rw [blocks_set_of_ne same] at found
      exact sound.sources height format found

theorem Sound.apply {node : StreamingNode} {block : Block} (sound : Sound node)
    (isStored : node.call = .stored block) (notesTree : PersistentMerkleTree) :
    Sound { node with chain := ⟨node.chain.store, notesTree⟩, call := .applied block } := by
  have isCalled : node.call.block? = some block := by rw [isStored]; rfl
  constructor
  · exact sound.filed
  · intro other isApplied
    exact sound.calling other (isCalled.trans isApplied)
  · intro other isApplied
    exact sound.placed other (isCalled.trans isApplied)
  · exact sound.settled
  · exact sound.kept
  · exact sound.sources

/-- A call ends, and its block is one of the committed or of the refused ones. -/
theorem Sound.ends {node : StreamingNode} {block : Block} {height : Nat}
    {committed refused : List Block} (sound : Sound node)
    (isCalled : node.call.block? = some block) (goesOn : node.height ≤ height)
    (settled : ∀ other ∈ committed, other ∈ node.committed ∨
      other = block ∧ heightOf block ≤ height)
    (keeps : ∀ other, other ∈ node.committed ∨ other ∈ node.refused ∨ other = block →
      other ∈ committed ∨ other ∈ refused) :
    Sound { node with height, call := .idle, committed, refused } := by
  constructor
  · exact sound.filed
  · intro other isCalled
    cases isCalled
  · intro other isCalled
    cases isCalled
  · intro other mem
    rcases settled other mem with old | ⟨rfl, isBelow⟩
    · exact (sound.settled other old).trans goesOn
    · exact isBelow
  · intro other mem
    rcases settled other mem with old | ⟨rfl, _⟩
    · exact sound.kept other old
    · exact sound.placed other isCalled
  · intro stored format found
    rcases sound.sources stored format found with (isCommitted | isRefused) | rfl
    · exact .inl (keeps _ (.inl isCommitted))
    · exact .inl (keeps _ (.inr (.inl isRefused)))
    · exact .inl (keeps _ (.inr (.inr (sound.eq_of_top isCalled found))))

theorem Sound.refuse {node : StreamingNode} {block : Block} {height : Nat} (sound : Sound node)
    (isCalled : node.call.block? = some block)
    (goesOn : height = node.height ∨ height = heightOf block) :
    Sound { node with height, call := .idle, refused := node.refused ++ [block] } := by
  apply sound.ends isCalled
  · rcases goesOn with rfl | rfl
    · exact le_refl _
    · exact (sound.calling block isCalled).ge.trans' (Nat.le_succ _)
  · exact fun other mem => .inl mem
  · rintro other (isCommitted | isRefused | rfl)
    · exact .inl isCommitted
    · exact .inr (List.mem_append_left _ isRefused)
    · exact .inr (List.mem_append_right _ (List.mem_singleton_self _))

theorem Sound.notify {node : StreamingNode} {block : Block} (sound : Sound node)
    (isCalled : node.call.block? = some block) :
    Sound { node with
      height := heightOf block
      call := .idle
      committed := node.committed ++ [block] } := by
  apply sound.ends isCalled
  · exact (sound.calling block isCalled).ge.trans' (Nat.le_succ _)
  · intro other mem
    rcases List.mem_append.mp mem with old | new
    · exact .inl old
    · exact .inr ⟨List.mem_singleton.mp new, le_refl _⟩
  · rintro other (isCommitted | isRefused | rfl)
    · exact .inl (List.mem_append_left _ isCommitted)
    · exact .inr isRefused
    · exact .inl (List.mem_append_right _ (List.mem_singleton_self _))

/-- A step keeps the node sound. -/
theorem Sound.step {node next : StreamingNode} {event : Event} (sound : Sound node)
    (taken : Step poseidon keccak tempNoir node event next) : Sound next := by
  cases taken with
  | store commitTime isIdle isNext unspent => exact sound.store commitTime isNext
  | apply isStored applied => exact sound.apply isStored _
  | refuse isStored refused goesOn => exact sound.refuse (by rw [isStored]; rfl) goesOn
  | notify isApplied => exact (sound.notify (by rw [isApplied]; rfl)).withStreams _
  | register fromHeight => exact sound.withStreams _
  | advance isOpen advances => exact sound.withStreams _
  | drop isOpen => exact sound.withStreams _

/-- The stored blocks up to the height of the node are a delivery. -/
theorem Sound.delivery_fetchBlocks {node : StreamingNode} (sound : Sound node)
    (fromHeight : Nat) :
    Delivery heightOf (· ∈ node.committed) (· ∈ node.refused) fromHeight (node.height + 1)
      (fetchBlocks node.chain.store fromHeight (node.height + 1)) := by
  constructor
  · exact sorted_fetchBlocks sound.filed _ _
  · intro block mem
    rcases mem_fetchBlocks_iff.mp mem with ⟨height, format, found, ⟨isAbove, _⟩, rfl⟩
    rw [heightOf, sound.filed.height_eq _ _ found]
    exact isAbove
  · intro block mem
    rcases mem_fetchBlocks_iff.mp mem with ⟨height, format, found, ⟨_, isBelow⟩, rfl⟩
    rw [heightOf, sound.filed.height_eq _ _ found]
    exact isBelow
  · intro block mem
    rcases mem_fetchBlocks_iff.mp mem with ⟨height, format, found, ⟨_, isBelow⟩, rfl⟩
    rcases sound.sources height format found with known | isTop
    · exact known
    · exact absurd isBelow (isTop ▸ Nat.lt_irrefl _)
  · intro block mem isWanted
    rcases sound.kept block mem with ⟨format, found, same⟩
    rw [mem_fetchBlocks_iff]
    exact ⟨_, format, found, ⟨isWanted, Nat.lt_succ_of_le (sound.settled block mem)⟩, same⟩

/-- The node goes on without a commit, and the stream would still yield the same. -/
theorem Delivers.mono {node next : StreamingNode} {stream : CommitStream}
    (delivers : Delivers node stream) (committed : next.committed = node.committed)
    (refused : ∀ block ∈ node.refused, block ∈ next.refused) (goesOn : node.height ≤ next.height)
    (same : stream.output next.chain.store = stream.output node.chain.store) :
    Delivers next stream := by
  constructor
  · rw [committed]
    exact delivers.first
  · rw [committed]
    exact delivers.since
  · rw [committed]
    exact delivers.heard
  · intro heard fromHeight startsAt
    rw [same, committed]
    exact (delivers.delivery heard fromHeight startsAt).mono refused (Nat.succ_le_succ goesOn)

/-- A block that is stored does not change what a stream yields. -/
theorem Delivers.store {node : StreamingNode} {stream : CommitStream} {block : Block}
    (sound : Sound node) (delivers : Delivers node stream) (commitTime : Nat)
    (isNext : heightOf block = node.height + 1) :
    Delivers { node with
      chain := ⟨node.chain.store.set (BlockFormat.indexing poseidon keccak)
        (.v2 block (some commitTime)), node.chain.notesTree⟩
      call := .stored block } stream := by
  have same : stream.output (node.chain.store.set (BlockFormat.indexing poseidon keccak)
      (.v2 block (some commitTime))) = stream.output node.chain.store := by
    apply CommitStream.output_congr
    intro firstCommit isFirst
    have isBelow : heightOf firstCommit ≤ heightOf block := by
      rw [isNext]
      exact Nat.le_succ_of_le (sound.settled _ (delivers.first _ isFirst))
    rw [CommitStream.blocksBefore, CommitStream.blocksBefore]
    cases stream.fromHeight with
    | none => rfl
    | some fromHeight => exact fetchBlocks_set sound.filed commitTime fromHeight isBelow
  exact delivers.mono rfl (fun _ => id) (le_refl _) same

/-- A listener is told of a commit. -/
theorem Delivers.send {node : StreamingNode} {stream : CommitStream} {block : Block}
    (sound : Sound node) (delivers : Delivers node stream)
    (isNext : heightOf block = node.height + 1) {next : StreamingNode}
    (height : next.height = heightOf block) (store : next.chain.store = node.chain.store)
    (committed : next.committed = node.committed ++ [block])
    (refused : next.refused = node.refused) : Delivers next (stream.send block) := by
  have grows : ∀ other, other ∈ next.committed ↔ other ∈ node.committed ∨ other = block := by
    intro other
    rw [committed, List.mem_append, List.mem_singleton]
  constructor
  · intro firstCommit isFirst
    rw [grows]
    exact (CommitStream.firstCommit_send isFirst).imp_left (delivers.first firstCommit)
  · rw [committed, List.length_append]
    exact Nat.le_add_right_of_le delivers.since
  · exact fun _ => stream.heard_send block
  · intro _ fromHeight startsAt
    have keeps : stream.keeps = _ := CommitStream.keeps_of_fromHeight startsAt
    rw [height, store, refused]
    by_cases heard : stream.Heard
    · rw [CommitStream.output_send heard, keeps]
      exact (delivers.delivery heard fromHeight startsAt).snoc isNext.ge grows
    · -- the first commit that it hears comes right after the stored blocks
      have stored := sound.delivery_fetchBlocks fromHeight
      have before : stream.blocksBefore node.chain.store block =
          fetchBlocks node.chain.store fromHeight (node.height + 1) := by
        change stream.fromHeight = some fromHeight at startsAt
        rw [CommitStream.blocksBefore, startsAt, isNext]
      rw [CommitStream.output_first heard, keeps, before, List.filter_append, stored.filter_eq]
      exact stored.snoc isNext.ge grows

/-- A stream that is registered has heard nothing yet. -/
theorem Delivers.registered (node : StreamingNode) (fromHeight : Option Nat) :
    Delivers node { fromHeight, committedBefore := node.committed.length } where
  first _ isFirst := by cases isFirst
  since := le_refl _
  heard later := absurd later (Nat.lt_irrefl _)
  delivery heard := absurd heard (by simp [CommitStream.Heard])

/-- A stream takes a step. -/
theorem Delivers.advance {node : StreamingNode} {stream next : CommitStream}
    (delivers : Delivers node stream) (advances : stream.advance node.chain.store = some next) :
    Delivers node next := by
  have moved := CommitStream.advances_of_advance advances
  constructor
  · intro firstCommit isFirst
    exact delivers.first firstCommit (moved.firstCommit firstCommit isFirst)
  · rw [moved.committedBefore_eq]
    exact delivers.since
  · exact fun _ => moved.stillHeard
  · intro _ fromHeight startsAt
    rw [moved.output_eq]
    exact delivers.delivery moved.heard fromHeight (moved.fromHeight_eq ▸ startsAt)

/-- A step keeps what holds of the streams. -/
theorem Delivers.step {node next : StreamingNode} {event : Event} (sound : Sound node)
    (delivers : ∀ stream ∈ node.streams, Delivers node stream)
    (taken : Step poseidon keccak tempNoir node event next) :
    ∀ stream ∈ next.streams, Delivers next stream := by
  have still : ∀ {streams : List CommitStream} {stream : CommitStream}, Delivers node stream →
      Delivers { node with streams } stream :=
    fun told => told.mono rfl (fun _ => id) (le_refl _) rfl
  cases taken with
  | store commitTime isIdle isNext unspent =>
      exact fun stream mem => (delivers stream mem).store sound commitTime isNext
  | apply isStored applied =>
      exact fun stream mem => (delivers stream mem).mono rfl (fun _ => id) (le_refl _) rfl
  | @refuse block stop height isStored refused goesOn =>
      have isCalled : node.call.block? = some block := by rw [isStored]; rfl
      have isAbove : node.height ≤ height := by
        rcases goesOn with rfl | rfl
        · exact le_refl _
        · exact (sound.calling block isCalled).ge.trans' (Nat.le_succ _)
      exact fun stream mem =>
        (delivers stream mem).mono rfl (fun _ => List.mem_append_left _) isAbove rfl
  | @notify block isApplied =>
      have isCalled : node.call.block? = some block := by rw [isApplied]; rfl
      intro stream mem
      rcases List.mem_map.mp mem with ⟨told, toldMem, rfl⟩
      exact (delivers told toldMem).send sound (sound.calling block isCalled) rfl rfl rfl rfl
  | register fromHeight =>
      intro stream mem
      rcases List.mem_append.mp mem with old | new
      · exact still (delivers stream old)
      · rcases List.mem_singleton.mp new with rfl
        exact still (.registered node fromHeight)
  | @advance before after old new isOpen advances =>
      have others : ∀ stream ∈ before ++ old :: after, Delivers node stream := isOpen ▸ delivers
      intro stream mem
      rcases List.mem_append.mp mem with early | rest
      · exact still (others stream (List.mem_append_left _ early))
      · rcases List.mem_cons.mp rest with rfl | late
        · exact still ((others old List.mem_append_cons_self).advance advances)
        · exact still (others stream (List.mem_append_right _ (List.mem_cons_of_mem _ late)))
  | @drop before after old isOpen =>
      intro stream mem
      have kept : stream ∈ node.streams := by
        rw [isOpen]
        exact List.mem_append.mpr ((List.mem_append.mp mem).imp_right (List.mem_cons_of_mem _))
      exact still (delivers stream kept)

/-- Every state of a run is sound, and its streams deliver. -/
theorem sound_and_delivers {chain : Chain} {height : Nat} {events : List Event}
    {node : StreamingNode} (filed : Filed chain.store)
    (within : ∀ stored ∈ chain.store.blocks, stored ≤ height)
    (run : Run (Step poseidon keccak tempNoir) (opened chain height) events node) :
    Sound node ∧ ∀ stream ∈ node.streams, Delivers node stream := by
  induction run with
  | nil => exact ⟨sound_opened filed within, fun stream mem => absurd mem List.not_mem_nil⟩
  | snoc _ taken ih => exact ⟨ih.1.step taken, Delivers.step ih.1 ih.2 taken⟩

variable (poseidon keccak tempNoir) in
/-- A stream that is asked for its items yields all of them and then waits. -/
theorem exists_waiting (node : StreamingNode) (before after : List CommitStream)
    (stream : CommitStream) :
    ∃ count waiting, Run (Step poseidon keccak tempNoir)
        { node with streams := before ++ stream :: after } (List.replicate count .advance)
        { node with streams := before ++ waiting :: after } ∧
      waiting.advance node.chain.store = none ∧
      waiting.yielded = stream.output node.chain.store := by
  induction steps : stream.stepsLeft node.chain.store using Nat.strong_induction_on
    generalizing stream with
  | _ steps ih =>
      cases advances : stream.advance node.chain.store with
      | none => exact ⟨0, stream, .nil, advances, (CommitStream.output_of_waits advances).symm⟩
      | some next =>
          have moved := CommitStream.advances_of_advance advances
          rcases ih _ (steps ▸ moved.fewer) next rfl with ⟨count, waiting, run, waits, yields⟩
          refine ⟨count + 1, waiting, ?_, waits, yields.trans moved.output_eq⟩
          rw [List.replicate_succ, ← List.singleton_append]
          have first : Run (Step poseidon keccak tempNoir)
              { node with streams := before ++ stream :: after } ([] ++ [.advance])
              { node with streams := before ++ next :: after } :=
            .snoc .nil (.advance rfl advances)
          exact first.trans run

/-- Whatever the order of the steps, a stream from a height on yields every committed
block from that height on, once and in the order of the heights, as soon as a block has been
committed since it was registered and it is asked for its items; besides it may yield stored
blocks that the tree has refused, and nothing else. -/
theorem commits_streamed_once {chain : Chain} {height fromHeight : Nat} {events : List Event}
    {node : StreamingNode} {before after : List CommitStream} {stream : CommitStream}
    (filed : Filed chain.store) (within : ∀ stored ∈ chain.store.blocks, stored ≤ height)
    (run : Run (Step poseidon keccak tempNoir) (opened chain height) events node)
    (isOpen : node.streams = before ++ stream :: after)
    (startsAt : stream.fromHeight = some fromHeight) :
    ∃ yields : List Block,
      stream.yielded <+: yields ∧
      yields.Pairwise (heightOf · < heightOf ·) ∧
      (∀ block ∈ yields, fromHeight ≤ heightOf block ∧
        (block ∈ node.committed ∨ block ∈ node.refused)) ∧
      (stream.committedBefore < node.committed.length →
        ∀ block ∈ node.committed, fromHeight ≤ heightOf block → block ∈ yields) ∧
      ∃ count waiting, Run (Step poseidon keccak tempNoir) node
          (List.replicate count .advance) { node with streams := before ++ waiting :: after } ∧
        waiting.advance node.chain.store = none ∧ waiting.yielded = yields := by
  rcases sound_and_delivers filed within run with ⟨_, delivers⟩
  have told := delivers stream (isOpen ▸ List.mem_append_cons_self)
  have waits := exists_waiting poseidon keccak tempNoir node before after stream
  rw [← isOpen] at waits
  refine ⟨stream.output node.chain.store, List.prefix_append _ _, ?_, ?_, ?_, waits⟩
  · by_cases heard : stream.Heard
    · exact (told.delivery heard fromHeight startsAt).sorted
    · rw [CommitStream.output_of_not_heard heard]
      exact .nil
  · intro block mem
    by_cases heard : stream.Heard
    · have delivery := told.delivery heard fromHeight startsAt
      exact ⟨delivery.above block mem, delivery.known block mem⟩
    · rw [CommitStream.output_of_not_heard heard] at mem
      exact absurd mem List.not_mem_nil
  · intro later
    exact (told.delivery (told.heard later) fromHeight startsAt).complete

/-- A node that has committed an empty block after a stream was registered. -/
def announced (fromHeight : Nat) : StreamingNode where
  chain := ⟨({} : Store).set (BlockFormat.indexing levelHash fun _ => 0)
    (.v2 (emptyBlock 1) (some 0)), emptyTree⟩
  height := 1
  streams := [{ fromHeight := some fromHeight, committedBefore := 0, channel := [emptyBlock 1] }]
  committed := [emptyBlock 1]

theorem run_announced (fromHeight : Nat) :
    Run (Step levelHash (fun _ => 0) false) (opened Chain.genesis 0)
      [.register (some fromHeight), .store (emptyBlock 1) 0, .apply, .notify]
      (announced fromHeight) := by
  have applied : applyBlockToTree levelHash false emptyTree (emptyBlock 1).content.state 1 =
      .ok emptyTree := by
    rw [applyBlockToTree_eq_ok_iff]
    constructor
    · exact List.nodup_nil
    · have isEmpty := ((emptyBlock 1).content.state.isEmpty_batch 1).mpr ⟨rfl, rfl⟩
      rw [Persistent.insertBatch, if_pos isEmpty]
      rfl
  have unspent : ∀ inputCommitment ∈ (emptyBlock 1).content.state.removeLeaves,
      emptyTree.tree.containsElement inputCommitment = true := by
    simp [emptyBlock, BlockState.removeLeaves]
  let registered := { opened Chain.genesis 0 with
    streams := [{ fromHeight := some fromHeight, committedBefore := 0 }] }
  let stored := { registered with
    chain := (announced fromHeight).chain, call := .stored (emptyBlock 1) }
  let written := { stored with call := .applied (emptyBlock 1) }
  have first : Step levelHash (fun _ => 0) false (opened Chain.genesis 0)
      (.register (some fromHeight)) registered := .register (some fromHeight)
  have second : Step levelHash (fun _ => 0) false registered (.store (emptyBlock 1) 0) stored :=
    .store 0 rfl rfl unspent
  have third : Step levelHash (fun _ => 0) false stored .apply written := .apply rfl applied
  have fourth : Step levelHash (fun _ => 0) false written .notify (announced fromHeight) :=
    @Step.notify _ _ _ written (emptyBlock 1) rfl
  exact .snoc (.snoc (.snoc (.snoc .nil first) second) third) fourth

/-- A stream that is registered at the first height before a commit yields its block. -/
theorem firstBlock_streamed :
    ∃ node count waiting, Run (Step levelHash (fun _ => 0) false) (opened Chain.genesis 0)
        [.register (some 1), .store (emptyBlock 1) 0, .apply, .notify] node ∧
      Run (Step levelHash (fun _ => 0) false) node (List.replicate count .advance)
        { node with streams := [waiting] } ∧
      emptyBlock 1 ∈ waiting.yielded := by
  have within : ∀ stored ∈ Chain.genesis.store.blocks, stored ≤ 0 := by
    intro stored mem
    exact absurd mem Std.TreeMap.not_mem_emptyc
  have isOpen : (announced 1).streams =
      [] ++ { fromHeight := some 1, committedBefore := 0, channel := [emptyBlock 1] } :: [] := rfl
  rcases commits_streamed_once filed_empty within (run_announced 1) isOpen rfl with
    ⟨yields, _, _, _, complete, count, waiting, run, _, rfl⟩
  refine ⟨announced 1, count, waiting, run_announced 1, run, ?_⟩
  exact complete Nat.zero_lt_one _ (List.mem_singleton_self _) (le_refl _)

end StreamingNode

end Ciphera.Node
