import Ciphera.Node.Leases

/-!
# What the mempool keeps and delivers

A batch is built of transactions without common changes; what is put aside for a
later batch and what a commit does not name goes back to the pool.  The listener of a
transaction is told the result of the first commit that names its key, and nothing
else.

A batch that meets a key without a transaction panics.  The lock is not poisoned, so
the calls go on from where the loop stopped.
-/

namespace Ciphera.Node

open Ciphera.Lib

namespace Mempool

variable {K V L C S R : Type}

/-- The listener that a call hands over. -/
def Call.listener : Call K V L C S R → Option S
  | .addWithListener _ _ _ sender => some sender
  | _ => none

/-- The keys that a call commits, with their results. -/
def Call.committed : Call K V L C S R → List (K × R)
  | .commit _ keysWithResults => keysWithResults
  | _ => []

/-- A mempool with the results that it has sent so far. -/
structure Served (K V L C S R : Type) where
  mempool : Mempool K V L C S := {}
  delivered : List (S × R) := []

/-- The results that a listener has received. -/
def Served.results [DecidableEq S] (state : Served K V L C S R) (listener : S) : List R :=
  (state.delivered.filter (·.1 = listener)).map Prod.snd

section

variable [DecidableEq K] [DecidableEq L] [DecidableEq C]

/-- The results that a call sends. -/
def Call.sends (mempool : Mempool K V L C S) : Call K V L C S R → List (S × R)
  | .commit lease keysWithResults => (mempool.commit lease keysWithResults).2
  | _ => []

/-- The mempool after a batch has stopped at a key without a transaction: what had
been taken is leased, and what had been put aside is dropped. -/
def stopped (mempool : Mempool K V L C S) (lease : L) (leasing : Leasing K V C)
    (rest : List K) : Mempool K V L C S :=
  (leasing.txns.map Prod.fst).foldl (fun mempool key => mempool.lease lease key)
    { mempool with pool := rest }

/-- A call of `add`, `add_with_listener`, `lease_batch` or `commit`, which returns or
panics. -/
inductive Serves : Served K V L C S R → Call K V L C S R → Served K V L C S R → Prop
  | returns {mempool next : Mempool K V L C S} {delivered : List (S × R)}
      {call : Call K V L C S R} :
      (∀ lease keys, call ≠ .leaseTxns lease keys) → Step mempool call next →
      Serves ⟨mempool, delivered⟩ call ⟨next, delivered ++ call.sends mempool⟩
  | panics {mempool : Mempool K V L C S} {delivered : List (S × R)} {lease : L} {maxCount : Nat}
      {passed rest : List K} {missing : K} {leasing : Leasing K V C} {message : String} :
      mempool.leaseBatch lease maxCount = .error message →
      mempool.pool = passed ++ missing :: rest → missing ∉ mempool.keys →
      leaseLoop mempool.txns maxCount passed {} = .ok ([], leasing) →
      Serves ⟨mempool, delivered⟩ (.leaseBatch lease maxCount)
        ⟨mempool.stopped lease leasing rest, delivered⟩

/-- The transactions of a batch, as they were pending, have no change in common. -/
def Apart (txns : List (K × MempoolTxn V C S)) (batch : List (K × V)) : Prop :=
  batch.Pairwise fun first second => ∀ firstTxn secondTxn,
    txns.lookup first.1 = some firstTxn → txns.lookup second.1 = some secondTxn →
      List.Disjoint firstTxn.changes secondTxn.changes

/-- No two pending transactions have a change in common. -/
structure Kept (mempool : Mempool K V L C S) : Prop where
  keysNodup : mempool.keys.Nodup
  disjoint : mempool.txns.Pairwise fun first second =>
    List.Disjoint first.2.changes second.2.changes

/-- Where a call leaves a key that stays pending: a key of the pool stays there or is taken by a
batch, and a key of a lease stays there, unless the lease is committed, and then it goes back to
the pool. -/
structure Places (mempool next : Mempool K V L C S) (call : Call K V L C S R) (key : K) :
    Prop where
  pooled : key ∈ mempool.pool → key ∈ next.pool ∨
    ∃ lease maxCount, call = .leaseBatch lease maxCount ∧ key ∈ next.leased lease
  held : ∀ lease, key ∈ mempool.leased lease → key ∈ next.pool ∨
    key ∈ next.leased lease ∧ ∀ keysWithResults, call ≠ .commit lease keysWithResults

/-- A lease that a batch has opened for a key of the pool, that still has the key, and that has
not been committed since. -/
def OpenLease (start : Served K V L C S R) (calls : List (Call K V L C S R))
    (state : Served K V L C S R) (lease : L) (key : K) : Prop :=
  ∃ (earlier later : List (Call K V L C S R)) (maxCount : Nat) (before taken : Served K V L C S R),
    calls = earlier ++ .leaseBatch lease maxCount :: later ∧
    Run Serves start earlier before ∧ key ∈ before.mempool.pool ∧
    Serves before (.leaseBatch lease maxCount) taken ∧ key ∈ taken.mempool.leased lease ∧
    Run Serves taken later state ∧ key ∈ state.mempool.leased lease ∧
    ∀ keysWithResults, .commit lease keysWithResults ∉ later

end

/-! ## The loop of a batch -/

section

variable [DecidableEq K] [DecidableEq C]

/-- What the loop of `lease_batch` has taken and put aside. -/
structure Leasing.Sound (txns : List (K × MempoolTxn V C S)) (leasing : Leasing K V C) : Prop where
  apart : Apart txns leasing.txns
  marked : ∀ entry ∈ leasing.txns, ∀ mempoolTxn, txns.lookup entry.1 = some mempoolTxn →
    ∀ change ∈ mempoolTxn.changes, change ∈ leasing.conflictCheck
  taken : ∀ change ∈ leasing.conflictCheck, ∃ key ∈ leasing.txns.map Prod.fst, ∃ mempoolTxn,
    txns.lookup key = some mempoolTxn ∧ change ∈ mempoolTxn.changes
  deferred : ∀ key ∈ leasing.discard, ∃ mempoolTxn, txns.lookup key = some mempoolTxn ∧
    ∃ change ∈ mempoolTxn.changes, change ∈ leasing.conflictCheck

omit [DecidableEq C] in
theorem Leasing.sound_empty (txns : List (K × MempoolTxn V C S)) :
    ({} : Leasing K V C).Sound txns where
  apart := List.Pairwise.nil
  marked _ mem := absurd mem List.not_mem_nil
  taken _ mem := absurd mem List.not_mem_nil
  deferred _ mem := absurd mem List.not_mem_nil

variable {txns : List (K × MempoolTxn V C S)} {leasing : Leasing K V C} {key : K}
  {mempoolTxn : MempoolTxn V C S}

/-- A transaction with a change that is taken is put aside. -/
theorem Leasing.Sound.defer (sound : leasing.Sound txns)
    (found : txns.lookup key = some mempoolTxn)
    (conflicts : mempoolTxn.changes.any (leasing.conflictCheck.contains ·) = true) :
    ({ leasing with discard := leasing.discard ++ [key] } : Leasing K V C).Sound txns where
  apart := sound.apart
  marked := sound.marked
  taken := sound.taken
  deferred := by
    intro other mem
    rcases List.mem_append.mp mem with old | new
    · exact sound.deferred other old
    · rcases List.any_eq_true.mp conflicts with ⟨change, changeMem, isTaken⟩
      rw [List.mem_singleton.mp new]
      exact ⟨mempoolTxn, found, change, changeMem, List.contains_iff_mem.mp isTaken⟩

/-- A transaction without such a change is taken. -/
theorem Leasing.Sound.take (sound : leasing.Sound txns)
    (found : txns.lookup key = some mempoolTxn)
    (clear : ¬mempoolTxn.changes.any (leasing.conflictCheck.contains ·) = true) :
    ({ leasing with
      txns := leasing.txns ++ [(key, mempoolTxn.txn)]
      conflictCheck := leasing.conflictCheck ++ mempoolTxn.changes } :
        Leasing K V C).Sound txns where
  apart := by
    apply List.pairwise_append.mpr
    refine ⟨sound.apart, List.pairwise_singleton _ _, ?_⟩
    intro first firstMem second secondMem firstTxn secondTxn firstFound secondFound change
      inFirst inSecond
    rw [List.mem_singleton.mp secondMem, found] at secondFound
    cases secondFound
    apply clear
    rw [List.any_eq_true]
    have isMarked := sound.marked first firstMem firstTxn firstFound change inFirst
    exact ⟨change, inSecond, List.contains_iff_mem.mpr isMarked⟩
  marked := by
    intro entry mem pending entryFound change changeMem
    rcases List.mem_append.mp mem with old | new
    · exact List.mem_append_left _ (sound.marked entry old pending entryFound change changeMem)
    · rw [List.mem_singleton.mp new, found] at entryFound
      cases entryFound
      exact List.mem_append_right _ changeMem
  taken := by
    intro change mem
    rw [List.map_append]
    rcases List.mem_append.mp mem with old | new
    · rcases sound.taken change old with ⟨other, otherMem, owned⟩
      exact ⟨other, List.mem_append_left _ otherMem, owned⟩
    · exact ⟨key, List.mem_append_right _ List.mem_cons_self, mempoolTxn, found, new⟩
  deferred := by
    intro other mem
    rcases sound.deferred other mem with ⟨pending, pendingFound, change, changeMem, isTaken⟩
    exact ⟨pending, pendingFound, change, changeMem, List.mem_append_left _ isTaken⟩

theorem Leasing.Sound.leaseLoop {maxCount : Nat} {pool rest : List K} {final : Leasing K V C}
    (sound : leasing.Sound txns)
    (finished : Mempool.leaseLoop txns maxCount pool leasing = .ok (rest, final)) :
    final.Sound txns := by
  induction pool generalizing leasing with
  | nil =>
      cases finished
      exact sound
  | cons key pool ih =>
      rw [Mempool.leaseLoop] at finished
      cases found : txns.lookup key with
      | none => simp [found] at finished
      | some mempoolTxn =>
          simp only [found] at finished
          split at finished
          · next conflicts => exact ih (sound.defer found conflicts) finished
          · next clear =>
              split at finished
              · cases finished
                exact sound.take found clear
              · exact ih (sound.take found clear) finished

omit [DecidableEq C] in
/-- Pending transactions have no change in common, so that only a key that has been
taken already is put aside. -/
theorem Leasing.Sound.taken_of_discard (sound : leasing.Sound txns)
    (disjoint : txns.Pairwise fun first second =>
      List.Disjoint first.2.changes second.2.changes)
    {other : K} (mem : other ∈ leasing.discard) : other ∈ leasing.txns.map Prod.fst := by
  rcases sound.deferred other mem with ⟨otherTxn, otherFound, change, inOther, isTaken⟩
  rcases sound.taken change isTaken with ⟨first, firstMem, firstTxn, firstFound, inFirst⟩
  have symmetric : Std.Symm fun first second : K × MempoolTxn V C S =>
      List.Disjoint first.2.changes second.2.changes :=
    ⟨fun _ _ apart _ inSecond inFirst => apart inFirst inSecond⟩
  by_cases same : other = first
  · rwa [same]
  · have apart := disjoint.forall (mem_of_lookup otherFound) (mem_of_lookup firstFound)
      fun equal => same (congrArg Prod.fst equal)
    exact absurd inFirst (apart inOther)

end

/-! ## One call -/

section

variable [DecidableEq K] [DecidableEq L] [DecidableEq C] {mempool next : Mempool K V L C S}
  {lease : L}

omit [DecidableEq K] [DecidableEq L] [DecidableEq C] in
theorem kept_empty : ({} : Mempool K V L C S).Kept where
  keysNodup := List.nodup_nil
  disjoint := List.Pairwise.nil

omit [DecidableEq L] in
theorem Kept.add {key : K} {txn : V} {changes : List C} {sender : Option S}
    (kept : mempool.Kept) (added : mempool.add key txn changes sender = .ok next) :
    next.Kept := by
  rcases add_eq_ok_iff.mp added with ⟨⟨noConflict, new⟩, rfl⟩
  have keysEq : ({ mempool with
      txns := mempool.txns ++ [(key, ⟨txn, sender, changes⟩)]
      pool := mempool.pool ++ [key] } : Mempool K V L C S).keys = mempool.keys ++ [key] := by
    simp [keys]
  constructor
  · rw [keysEq]
    exact kept.keysNodup.append (List.nodup_singleton key) (List.disjoint_singleton.mpr new)
  · apply List.pairwise_append.mpr
    refine ⟨kept.disjoint, List.pairwise_singleton _ _, ?_⟩
    intro first firstMem second secondMem change inFirst inSecond
    rw [List.mem_singleton.mp secondMem] at inSecond
    apply List.find?_eq_none.mp noConflict change inSecond
    exact List.any_eq_true.mpr ⟨first, firstMem, List.contains_iff_mem.mpr inFirst⟩

omit [DecidableEq C] in
theorem Kept.commit {keysWithResults : List (K × R)} (kept : mempool.Kept) (freed : List K) :
    ((mempool.commitKeys lease keysWithResults).freeIn lease freed).Kept := by
  rw [commitKeys_eq]
  have sublist : (mempool.txns.filter (·.1 ∉ keysWithResults.map Prod.fst)).Sublist
      mempool.txns := List.filter_sublist
  exact ⟨kept.keysNodup.sublist (sublist.map Prod.fst), kept.disjoint.sublist sublist⟩

theorem Serves.kept {state after : Served K V L C S R} {call : Call K V L C S R}
    (kept : state.mempool.Kept) (serves : Serves state call after) : after.mempool.Kept := by
  cases serves with
  | returns notLeaseTxns step =>
      cases step with
      | added added | addedWithListener added => exact kept.add added
      | refused _ | refusedWithListener _ => exact kept
      | leaseTxns => exact absurd rfl (notLeaseTxns _ _)
      | leaseBatch leased =>
          rcases leaseBatch_eq_ok leased with ⟨_, _, _, rfl⟩
          exact ⟨kept.keysNodup, kept.disjoint⟩
      | commit perm => exact kept.commit _
  | panics _ _ _ _ =>
      rw [Mempool.stopped, foldl_lease]
      exact ⟨kept.keysNodup, kept.disjoint⟩

variable {call : Call K V L C S R} {key : K}

omit [DecidableEq K] [DecidableEq L] [DecidableEq C] in
/-- A call that is not a commit, and after which nothing has left the pool or a lease. -/
theorem Places.of_subset (pooled : key ∈ mempool.pool → key ∈ next.pool)
    (held : next.leased = mempool.leased)
    (notCommit : ∀ lease keysWithResults, call ≠ .commit lease keysWithResults) :
    Places mempool next call key where
  pooled mem := .inl (pooled mem)
  held lease isHeld := .inr ⟨held ▸ isHeld, notCommit lease⟩

omit [DecidableEq C] in
/-- Keys that leave the pool for a lease. -/
theorem Places.leased {taken rest : List K} {maxCount : Nat}
    (moved : key ∈ mempool.pool → key ∈ taken ∨ key ∈ rest) :
    Places mempool
      { mempool with
        pool := rest
        leased := Function.update mempool.leased lease
          (taken.foldl (fun leased key => leased.insert key) (mempool.leased lease)) }
      (.leaseBatch lease maxCount : Call K V L C S R) key where
  pooled := by
    intro pooled
    rcases moved pooled with isTaken | stays
    · exact .inr ⟨lease, maxCount, rfl, mem_update_taken.mpr (.inl ⟨rfl, isTaken⟩)⟩
    · exact .inl stays
  held holder isHeld := .inr ⟨mem_update_taken.mpr (.inr isHeld), fun _ same => by cases same⟩

/-- A batch that panics loses nothing: what it drops has been taken. -/
theorem Places.stopped {maxCount : Nat} {passed rest : List K} {missing : K}
    {leasing : Leasing K V C} (kept : mempool.Kept)
    (poolEq : mempool.pool = passed ++ missing :: rest) (known : key ≠ missing)
    (finished : leaseLoop mempool.txns maxCount passed {} = .ok ([], leasing)) :
    Places mempool (mempool.stopped lease leasing rest)
      (.leaseBatch lease maxCount : Call K V L C S R) key := by
  have perm := (leaseLoop_eq_ok finished).1
  have sound := (Leasing.sound_empty mempool.txns).leaseLoop finished
  rw [Mempool.stopped, foldl_lease]
  apply Places.leased
  intro pooled
  rw [poolEq] at pooled
  rcases List.mem_append.mp pooled with isPassed | isLater
  · have mem : key ∈ leasing.txns.map Prod.fst ++ leasing.discard ++ [] :=
      perm.mem_iff.mpr (List.mem_append_right _ isPassed)
    rw [List.append_nil] at mem
    rcases List.mem_append.mp mem with isTaken | isDropped
    · exact .inl isTaken
    · exact .inl (sound.taken_of_discard kept.disjoint isDropped)
  · exact .inr ((List.mem_cons.mp isLater).resolve_left known)

omit [DecidableEq C] in
/-- A commit frees what it does not name. -/
theorem Places.commit {keysWithResults : List (K × R)} {freed : List K}
    (perm : freed.Perm ((mempool.commitKeys lease keysWithResults).leased lease))
    (unnamed : key ∉ keysWithResults.map Prod.fst) :
    Places mempool ((mempool.commitKeys lease keysWithResults).freeIn lease freed)
      (.commit lease keysWithResults) key := by
  rw [leased_commitKeys] at perm
  rw [commitKeys_eq]
  constructor
  · intro pooled
    exact .inl (List.mem_append_right _ (List.mem_diff_of_mem pooled unnamed))
  · intro holder isHeld
    by_cases same : holder = lease
    · subst same
      have isFreed := perm.mem_iff.mpr (List.mem_diff_of_mem isHeld unnamed)
      exact .inl (List.mem_append_left _ isFreed)
    · refine .inr ⟨?_, fun _ isCommit => same (Call.commit.inj isCommit).1.symm⟩
      simp only [freeIn, Function.update_of_ne same]
      exact isHeld

/-- No call loses a key that stays pending. -/
theorem Serves.places {state after : Served K V L C S R} (kept : state.mempool.Kept)
    (pending : key ∈ after.mempool.keys) (serves : Serves state call after) :
    Places state.mempool after.mempool call key := by
  cases serves with
  | returns notLeaseTxns step =>
      cases step with
      | added added | addedWithListener added =>
          rcases add_eq_ok added with ⟨_, rfl⟩
          exact .of_subset (List.mem_append_left _) rfl fun _ _ same => by cases same
      | refused _ | refusedWithListener _ =>
          exact .of_subset id rfl fun _ _ same => by cases same
      | leaseTxns => exact absurd rfl (notLeaseTxns _ _)
      | leaseBatch leased =>
          rcases leaseBatch_eq_ok leased with ⟨rest, perm, _, rfl⟩
          apply Places.leased
          exact fun pooled => List.mem_append.mp (perm.mem_iff.mpr pooled)
      | commit perm => exact .commit perm (mem_keys_commitKeys.mp pending).2
  | @panics mempool _ _ _ _ _ missing _ _ _ poolEq unknown finished =>
      have known : key ≠ missing := by
        rintro rfl
        rw [Mempool.stopped, foldl_lease] at pending
        exact unknown pending
      exact .stopped kept poolEq known finished

/-- The transactions of a batch have no change in common. -/
theorem apart_of_leaseBatch {maxCount : Nat} {batch : List (K × V)}
    (leased : mempool.leaseBatch lease maxCount = .ok (next, batch)) :
    Apart mempool.txns batch := by
  simp only [Mempool.leaseBatch, bind_eq_ok_iff, pure_eq_ok_iff] at leased
  rcases leased with ⟨⟨rest, leasing⟩, finished, result⟩
  rw [← (Prod.mk.inj result).2]
  exact ((Leasing.sound_empty mempool.txns).leaseLoop finished).apart

end

/-! ## Listeners -/

section

variable [DecidableEq K] [DecidableEq L]

/-- The results of a commit follow those that were sent before. -/
theorem foldl_commitKey (lease : L) (mempool : Mempool K V L C S) (sent : List (S × R))
    (keysWithResults : List (K × R)) :
    keysWithResults.foldl (commitKey lease) (mempool, sent) =
      (mempool.commitKeys lease keysWithResults,
        sent ++ (mempool.commit lease keysWithResults).2) := by
  suffices folded : ∀ (state : Mempool K V L C S × List (S × R)),
      keysWithResults.foldl (commitKey lease) (state.1, sent ++ state.2) =
        ((keysWithResults.foldl (commitKey lease) state).1,
          sent ++ (keysWithResults.foldl (commitKey lease) state).2) by
    have started := folded (mempool, [])
    rwa [List.append_nil] at started
  induction keysWithResults with
  | nil => exact fun _ => rfl
  | cons first keysWithResults ih =>
      intro state
      rw [List.foldl_cons, List.foldl_cons, ← ih (commitKey lease state first)]
      simp only [commitKey, List.append_assoc]

variable [DecidableEq C]

/-- The pending transactions stay, or one more is added with the listener of the call. -/
def Grows (mempool next : Mempool K V L C S) (sender : Option S) : Prop :=
  next.txns = mempool.txns ∨ ∃ key entry, entry.sender = sender ∧
    next.txns = mempool.txns ++ [(key, entry)]

omit [DecidableEq L] [DecidableEq C] in
theorem Grows.lookup {mempool next : Mempool K V L C S} {sender : Option S} {key : K}
    {entry : MempoolTxn V C S} (grows : mempool.Grows next sender)
    (found : mempool.txns.lookup key = some entry) : next.txns.lookup key = some entry := by
  rcases grows with sameTxns | ⟨_, _, _, txnsEq⟩
  · rwa [sameTxns]
  · rw [txnsEq, List.lookup_append, found, Option.some_or]

omit [DecidableEq K] [DecidableEq L] [DecidableEq C] in
theorem Grows.mem_of_sender {mempool next : Mempool K V L C S} {sender : Option S} {listener : S}
    (grows : mempool.Grows next sender) (differ : sender ≠ some listener) :
    ∀ other ∈ next.txns, other.2.sender = some listener → other ∈ mempool.txns := by
  intro other mem isSender
  rcases grows with sameTxns | ⟨_, _, senderEq, txnsEq⟩
  · rwa [sameTxns] at mem
  · rw [txnsEq] at mem
    rcases List.mem_append.mp mem with old | new
    · exact old
    · rw [List.mem_singleton.mp new] at isSender
      exact absurd (senderEq.symm.trans isSender) differ

/-- What a call does to the pending transactions and to the results. -/
theorem Serves.txns_cases {state after : Served K V L C S R} {call : Call K V L C S R}
    (serves : Serves state call after) :
    (call.committed = [] ∧ after.delivered = state.delivered ∧
        state.mempool.Grows after.mempool call.listener) ∨
      ∃ lease, after.mempool.txns = (call.committed.foldl (commitKey lease)
          (state.mempool, state.delivered)).1.txns ∧
        after.delivered = (call.committed.foldl (commitKey lease)
          (state.mempool, state.delivered)).2 := by
  cases serves with
  | returns notLeaseTxns step =>
      cases step with
      | added added | addedWithListener added =>
          rcases add_eq_ok added with ⟨_, rfl⟩
          exact .inl ⟨rfl, List.append_nil _, .inr ⟨_, _, rfl, rfl⟩⟩
      | refused _ | refusedWithListener _ => exact .inl ⟨rfl, List.append_nil _, .inl rfl⟩
      | leaseTxns => exact absurd rfl (notLeaseTxns _ _)
      | leaseBatch leased =>
          rcases leaseBatch_eq_ok leased with ⟨_, _, _, rfl⟩
          exact .inl ⟨rfl, List.append_nil _, .inl rfl⟩
      | @commit lease _ _ _ =>
          refine .inr ⟨lease, ?_, ?_⟩
          · rw [foldl_commitKey]
            rfl
          · rw [foldl_commitKey]
            rfl
  | panics _ _ _ _ =>
      refine .inl ⟨rfl, rfl, .inl ?_⟩
      rw [Mempool.stopped, foldl_lease]

variable [DecidableEq S] {listener : S} {key : K} {entry : MempoolTxn V C S}

/-- A listener has heard some results, and no transaction holds its sender but the one
of the awaited key. -/
structure Hears (state : Served K V L C S R) (listener : S) (heard : List R)
    (awaited : Option K) : Prop where
  results : state.results listener = heard
  waits : ∀ other ∈ state.mempool.txns, other.2.sender = some listener → awaited = some other.1

/-- The key for which a listener waits, after commits. -/
def awaits (key : K) (log : List (K × R)) : Option K :=
  if (log.lookup key).isSome then none else some key

omit [DecidableEq K] [DecidableEq L] [DecidableEq C] in
theorem Served.results_append (mempool next : Mempool K V L C S) (delivered sent : List (S × R)) :
    (⟨next, delivered ++ sent⟩ : Served K V L C S R).results listener =
      (⟨mempool, delivered⟩ : Served K V L C S R).results listener ++
        (sent.filter (·.1 = listener)).map Prod.snd := by
  simp only [Served.results, List.filter_append, List.map_append]

omit [DecidableEq C] in
/-- Another key is committed. -/
theorem Hears.commitKey_other {mempool : Mempool K V L C S} {delivered : List (S × R)}
    {heard : List R} {awaited : Option K} {lease : L} {keyWithResult : K × R}
    (hears : Hears ⟨mempool, delivered⟩ listener heard awaited)
    (notAwaited : awaited ≠ some keyWithResult.1) :
    Hears ⟨(commitKey lease (mempool, delivered) keyWithResult).1,
      (commitKey lease (mempool, delivered) keyWithResult).2⟩ listener heard awaited where
  results := by
    rw [← hears.results, commitKey, Served.results_append mempool,
      List.append_right_eq_self]
    cases found : mempool.txns.lookup keyWithResult.1 with
    | none => rfl
    | some pending =>
        cases sender : pending.sender with
        | none => simp [sender]
        | some other =>
            have differ : other ≠ listener := by
              rintro rfl
              exact notAwaited (hears.waits _ (mem_of_lookup found) sender)
            simp [sender, differ]
  waits other mem := hears.waits other (List.mem_of_mem_filter mem)

omit [DecidableEq C] in
/-- The awaited key is committed. -/
theorem Hears.commitKey_awaited {mempool : Mempool K V L C S} {delivered : List (S × R)}
    {heard : List R} {lease : L} {result : R}
    (hears : Hears ⟨mempool, delivered⟩ listener heard (some key))
    (found : mempool.txns.lookup key = some entry) (sender : entry.sender = some listener) :
    Hears ⟨(commitKey lease (mempool, delivered) (key, result)).1,
      (commitKey lease (mempool, delivered) (key, result)).2⟩ listener (heard ++ [result])
        none where
  results := by
    rw [← hears.results, commitKey, Served.results_append mempool, found]
    simp [sender]
  waits := by
    intro other mem isSender
    rcases List.mem_filter.mp mem with ⟨pending, differ⟩
    have same := Option.some.inj (hears.waits other pending isSender)
    exact absurd same.symm (of_decide_eq_true differ)

omit [DecidableEq C] in
/-- A commit tells nothing to a listener that waits for no key. -/
theorem Hears.commitKeys {mempool : Mempool K V L C S} {delivered : List (S × R)}
    {heard : List R} (lease : L) (keysWithResults : List (K × R))
    (hears : Hears ⟨mempool, delivered⟩ listener heard none) :
    Hears ⟨(keysWithResults.foldl (commitKey lease) (mempool, delivered)).1,
      (keysWithResults.foldl (commitKey lease) (mempool, delivered)).2⟩ listener heard none := by
  induction keysWithResults generalizing mempool delivered with
  | nil => exact hears
  | cons first keysWithResults ih => exact ih (hears.commitKey_other (Option.some_ne_none _).symm)

/-- The transaction is pending unless its key has been committed. -/
def Pends (mempool : Mempool K V L C S) (key : K) (entry : MempoolTxn V C S)
    (log : List (K × R)) : Prop :=
  log.lookup key = none → mempool.txns.lookup key = some entry

omit [DecidableEq L] [DecidableEq C] [DecidableEq S] in
theorem lookup_snoc (log : List (K × R)) (keyWithResult : K × R) :
    (log ++ [keyWithResult]).lookup key =
      (log.lookup key).or (if key = keyWithResult.1 then some keyWithResult.2 else none) := by
  rw [List.lookup_append]
  by_cases same : key = keyWithResult.1
  · rw [if_pos same, List.lookup_cons, beq_iff_eq.mpr same]
  · rw [if_neg same, List.lookup_cons, beq_false_of_ne same, List.lookup_nil]

omit [DecidableEq C] [DecidableEq S] in
theorem Pends.commitKey {mempool : Mempool K V L C S} {log : List (K × R)} (lease : L)
    (delivered : List (S × R)) (keyWithResult : K × R) (pends : mempool.Pends key entry log) :
    (Mempool.commitKey lease (mempool, delivered) keyWithResult).1.Pends key entry
      (log ++ [keyWithResult]) := by
  intro unnamed
  rw [lookup_snoc, Option.or_eq_none_iff] at unnamed
  have differ : keyWithResult.1 ≠ key := by
    intro same
    rw [if_pos same.symm] at unnamed
    cases unnamed.2
  exact (lookup_filter_ne differ).trans (pends unnamed.1)

omit [DecidableEq C] in
/-- The listener of a key hears the first result that is committed for it. -/
theorem Hears.commitKey {lease : L} {mempool : Mempool K V L C S} {delivered : List (S × R)}
    {log : List (K × R)} {keyWithResult : K × R} (sender : entry.sender = some listener)
    (pends : mempool.Pends key entry log)
    (hears : Hears ⟨mempool, delivered⟩ listener (log.lookup key).toList (awaits key log)) :
    Hears ⟨(Mempool.commitKey lease (mempool, delivered) keyWithResult).1,
        (Mempool.commitKey lease (mempool, delivered) keyWithResult).2⟩ listener
      ((log ++ [keyWithResult]).lookup key).toList (awaits key (log ++ [keyWithResult])) := by
  rw [awaits] at hears ⊢
  rw [lookup_snoc]
  cases named : log.lookup key with
  | some result =>
      rw [named] at hears
      exact hears.commitKey_other (Option.some_ne_none _).symm
  | none =>
      rw [named] at hears
      by_cases same : key = keyWithResult.1
      · subst same
        rw [if_pos rfl]
        exact hears.commitKey_awaited (pends named) sender
      · rw [if_neg same]
        exact hears.commitKey_other fun equal => same (Option.some.inj equal)

omit [DecidableEq C] in
theorem Hears.commitKeys_awaiting {mempool : Mempool K V L C S} {delivered : List (S × R)}
    {log : List (K × R)} (lease : L) (keysWithResults : List (K × R))
    (sender : entry.sender = some listener)
    (pends : mempool.Pends key entry log)
    (hears : Hears ⟨mempool, delivered⟩ listener (log.lookup key).toList (awaits key log)) :
    Hears ⟨(keysWithResults.foldl (Mempool.commitKey lease) (mempool, delivered)).1,
        (keysWithResults.foldl (Mempool.commitKey lease) (mempool, delivered)).2⟩ listener
      ((log ++ keysWithResults).lookup key).toList (awaits key (log ++ keysWithResults)) := by
  induction keysWithResults generalizing mempool delivered log with
  | nil => rwa [List.append_nil]
  | cons first keysWithResults ih =>
      rw [List.append_cons]
      exact ih (pends.commitKey lease delivered first) (hears.commitKey sender pends)

omit [DecidableEq C] [DecidableEq S] in
theorem Pends.commitKeys {mempool : Mempool K V L C S} {log : List (K × R)} (lease : L)
    (delivered : List (S × R)) (keysWithResults : List (K × R))
    (pends : mempool.Pends key entry log) :
    (keysWithResults.foldl (Mempool.commitKey lease) (mempool, delivered)).1.Pends key entry
      (log ++ keysWithResults) := by
  induction keysWithResults generalizing mempool delivered log with
  | nil => rwa [List.append_nil]
  | cons first keysWithResults ih =>
      rw [List.append_cons]
      exact ih _ (pends.commitKey lease delivered first)

omit [DecidableEq K] [DecidableEq L] [DecidableEq C] in
/-- No result is sent and no sender of the listener is added. -/
theorem Hears.mono {state after : Served K V L C S R} {heard : List R} {awaited : Option K}
    (hears : Hears state listener heard awaited) (sameResults : after.delivered = state.delivered)
    (old : ∀ other ∈ after.mempool.txns, other.2.sender = some listener →
      other ∈ state.mempool.txns) : Hears after listener heard awaited where
  results := by rw [← hears.results, Served.results, Served.results, sameResults]
  waits other mem isSender := hears.waits other (old other mem isSender) isSender

/-- Calls with other listeners leave a listener that waits for no key alone. -/
theorem Serves.hears {state after : Served K V L C S R} {call : Call K V L C S R}
    {heard : List R} (hears : Hears state listener heard none) (serves : Serves state call after)
    (other : call.listener ≠ some listener) : Hears after listener heard none := by
  rcases serves.txns_cases with ⟨_, sameResults, old⟩ | ⟨lease, txnsEq, resultsEq⟩
  · exact hears.mono sameResults (old.mem_of_sender other)
  · apply (hears.commitKeys lease call.committed).mono resultsEq
    rw [txnsEq]
    exact fun _ mem _ => mem

omit [DecidableEq S] in
/-- A call keeps a transaction pending unless it commits its key. -/
theorem Serves.pends {state after : Served K V L C S R} {call : Call K V L C S R}
    {log : List (K × R)} (pends : state.mempool.Pends key entry log)
    (serves : Serves state call after) :
    after.mempool.Pends key entry (log ++ call.committed) := by
  rcases serves.txns_cases with ⟨nothing, _, old⟩ | ⟨lease, txnsEq, _⟩
  · rw [nothing, List.append_nil]
    exact fun unnamed => old.lookup (pends unnamed)
  · rw [Pends, txnsEq]
    exact pends.commitKeys lease state.delivered call.committed

/-- A call tells the listener of a key the first result committed for it. -/
theorem Serves.hears_awaiting {state after : Served K V L C S R} {call : Call K V L C S R}
    {log : List (K × R)} (sender : entry.sender = some listener)
    (pends : state.mempool.Pends key entry log)
    (hears : Hears state listener (log.lookup key).toList (awaits key log))
    (serves : Serves state call after) (other : call.listener ≠ some listener) :
    Hears after listener ((log ++ call.committed).lookup key).toList
      (awaits key (log ++ call.committed)) := by
  rcases serves.txns_cases with ⟨nothing, sameResults, old⟩ | ⟨lease, txnsEq, resultsEq⟩
  · rw [nothing, List.append_nil]
    exact hears.mono sameResults (old.mem_of_sender other)
  · apply (hears.commitKeys_awaiting lease call.committed sender pends).mono resultsEq
    rw [txnsEq]
    exact fun _ mem _ => mem

end

/-! ## Commits of leased keys -/

section

variable [DecidableEq K] [DecidableEq L] [DecidableEq C]

/-- A commit names keys of its lease only. -/
def OwnKeys (mempool : Mempool K V L C S) : Call K V L C S R → Prop
  | .commit lease keysWithResults =>
      ∀ key ∈ keysWithResults.map Prod.fst, key ∈ mempool.leased lease
  | _ => True

/-- The pending keys are divided between the pool and the leases, which hold no
others. -/
structure Held (mempool : Mempool K V L C S) : Prop where
  divided : mempool.Divided
  leasesNodup : ∀ lease, (mempool.leased lease).Nodup
  pending : ∀ lease, ∀ key ∈ mempool.leased lease, key ∈ mempool.keys

variable {mempool next : Mempool K V L C S} {call : Call K V L C S R}

omit [DecidableEq L] in
theorem Held.safe (held : mempool.Held)
    (notLeaseTxns : ∀ lease keys, call ≠ .leaseTxns lease keys) :
    mempool.Safe call := by
  cases call with
  | add key txn changes | addWithListener key txn changes sender =>
      exact fun accepts lease isHeld => accepts.2 (held.pending lease key isHeld)
  | leaseTxns lease keys => exact absurd rfl (notLeaseTxns lease keys)
  | leaseBatch lease maxCount => trivial
  | commit lease keysWithResults => exact fun key isHeld _ => held.pending lease key isHeld

/-- A key of a lease that a commit does not free is not named by it. -/
theorem Held.pending_step (held : mempool.Held)
    (notLeaseTxns : ∀ lease keys, call ≠ .leaseTxns lease keys) (own : mempool.OwnKeys call)
    (step : Step mempool call next) :
    ∀ lease, ∀ key ∈ next.leased lease, key ∈ next.keys := by
  rcases divided_iff.mp held.divided with ⟨_, pooled, leased⟩
  intro any key isHeld
  cases step with
  | added added | addedWithListener added =>
      rcases add_eq_ok added with ⟨_, rfl⟩
      rw [keys, List.map_append]
      exact List.mem_append_left _ (held.pending any key isHeld)
  | refused _ | refusedWithListener _ => exact held.pending any key isHeld
  | leaseTxns => exact absurd rfl (notLeaseTxns _ _)
  | leaseBatch batched =>
      rcases leaseBatch_eq_ok batched with ⟨_, perm, _, rfl⟩
      rcases mem_update_taken.mp isHeld with ⟨_, taken⟩ | before
      · exact (pooled key (perm.mem_iff.mp (List.mem_append_left _ taken))).1
      · exact held.pending any key before
  | @commit lease keysWithResults freed perm =>
      have isOther : any ≠ lease := by
        rintro rfl
        simp [freeIn] at isHeld
      have before : key ∈ mempool.leased any := by
        rw [commitKeys_eq] at isHeld
        simpa only [freeIn, Function.update_of_ne isOther] using isHeld
      have pending := held.pending any key before
      apply mem_keys_commitKeys.mpr
      refine ⟨pending, fun named => isOther ?_⟩
      have notPooled : key ∉ mempool.pool := fun mem => (pooled key mem).2 any before
      rcases leased key pending notPooled with ⟨_, _, unique⟩
      exact (unique any before).trans (unique lease (own key named)).symm

theorem Held.step (held : mempool.Held)
    (notLeaseTxns : ∀ lease keys, call ≠ .leaseTxns lease keys) (own : mempool.OwnKeys call)
    (step : Step mempool call next) : next.Held where
  divided := (step.divided_iff held.divided held.leasesNodup).mpr (held.safe notLeaseTxns)
  leasesNodup := step.leasesNodup held.leasesNodup
  pending := held.pending_step notLeaseTxns own step

theorem held_of_run {calls : List (Call K V L C S R)} {state : Served K V L C S R}
    (run : Run (fun before call after => Serves before call after ∧ before.mempool.OwnKeys call)
      {} calls state) : state.mempool.Held := by
  induction run with
  | nil =>
      exact ⟨divided_empty, fun _ => List.nodup_nil, fun _ _ mem => absurd mem List.not_mem_nil⟩
  | snoc _ taken held =>
      rcases taken with ⟨serves, own⟩
      cases serves with
      | returns notLeaseTxns step => exact held.step notLeaseTxns own step
      | @panics mempool _ lease maxCount _ _ _ _ _ failed =>
          rcases held.divided.exists_leaseBatch lease maxCount with ⟨_, returned⟩
          rw [returned] at failed
          cases failed

end

/-! ## Runs -/

section

variable [DecidableEq K] [DecidableEq L] [DecidableEq C] {calls : List (Call K V L C S R)}
  {state : Served K V L C S R}

theorem kept_of_run {after : Served K V L C S R} (start : state.mempool.Kept)
    (run : Run Serves state calls after) : after.mempool.Kept := by
  induction run with
  | nil => exact start
  | snoc _ serves kept => exact serves.kept kept

variable {key : K} {entry : MempoolTxn V C S}

/-- A transaction stays pending until its key is committed. -/
theorem pends_of_run {after : Served K V L C S R}
    (found : state.mempool.txns.lookup key = some entry) (run : Run Serves state calls after) :
    after.mempool.Pends key entry (calls.flatMap Call.committed) := by
  induction run with
  | nil => exact fun _ => found
  | snoc _ serves pends =>
      rw [List.flatMap_append, List.flatMap_singleton]
      exact serves.pends pends

/-- A lease stays open as long as the calls do not commit it. -/
theorem OpenLease.snoc {start after : Served K V L C S R} {call : Call K V L C S R} {lease : L}
    (isOpen : OpenLease start calls state lease key) (serves : Serves state call after)
    (isHeld : key ∈ after.mempool.leased lease)
    (notCommit : ∀ keysWithResults, call ≠ .commit lease keysWithResults) :
    OpenLease start (calls ++ [call]) after lease key := by
  rcases isOpen with ⟨earlier, later, maxCount, before, taken, rfl, first, pooled, batch, took,
    rest, _, uncommitted⟩
  refine ⟨earlier, later ++ [call], maxCount, before, taken, ?_, first, pooled, batch, took,
    .snoc rest serves, isHeld, ?_⟩
  · rw [List.append_assoc, List.cons_append]
  · intro keysWithResults mem
    rcases List.mem_append.mp mem with old | new
    · exact uncommitted keysWithResults old
    · exact notCommit keysWithResults (List.mem_singleton.mp new).symm

/-- A key of the pool stays there, or in a lease that is open, until it is committed. -/
theorem pooled_or_open_of_run {after : Served K V L C S R} (kept : state.mempool.Kept)
    (found : state.mempool.txns.lookup key = some entry) (pooled : key ∈ state.mempool.pool)
    (run : Run Serves state calls after)
    (unnamed : key ∉ (calls.flatMap Call.committed).map Prod.fst) :
    key ∈ after.mempool.pool ∨ ∃ lease, OpenLease state calls after lease key := by
  induction run with
  | nil => exact .inl pooled
  | @snoc calls before call after run serves ih =>
      have whole : after.mempool.txns.lookup key = some entry :=
        pends_of_run found (run.snoc serves) (lookup_eq_none_iff.mpr unnamed)
      rw [List.flatMap_append, List.map_append, List.mem_append, not_or] at unnamed
      have places : Places before.mempool after.mempool call key :=
        serves.places (kept_of_run kept run) (List.mem_map_of_mem (mem_of_lookup whole))
      rcases ih unnamed.1 with isPooled | ⟨lease, isOpen⟩
      · rcases places.pooled isPooled with stays | ⟨lease, maxCount, rfl, taken⟩
        · exact .inl stays
        · exact .inr ⟨lease, calls, [], maxCount, before, after, rfl, run, isPooled, serves, taken,
            .nil, taken, fun _ => List.not_mem_nil⟩
      · have isHeld : key ∈ before.mempool.leased lease := by
          rcases isOpen with ⟨_, _, _, _, _, _, _, _, _, _, _, isHeld, _⟩
          exact isHeld
        rcases places.held lease isHeld with freed | ⟨stays, notCommit⟩
        · exact .inl freed
        · exact .inr ⟨lease, isOpen.snoc serves stays notCommit⟩

variable [DecidableEq S]

/-- A listener that no call has handed over has heard nothing. -/
theorem hears_nothing_of_run {listener : S} (run : Run Serves {} calls state)
    (fresh : listener ∉ calls.filterMap Call.listener) :
    Hears state listener ([] : List R) none := by
  induction run with
  | nil => exact ⟨rfl, fun _ mem => absurd mem List.not_mem_nil⟩
  | snoc _ serves ih =>
      rw [List.filterMap_append, List.mem_append, not_or] at fresh
      apply serves.hears (ih fresh.1)
      intro isListener
      apply fresh.2
      rw [List.mem_filterMap]
      exact ⟨_, List.mem_cons_self, isListener⟩

/-- The listener of a key hears the first result that is committed for it. -/
theorem hears_of_run {after : Served K V L C S R} {listener : S}
    (found : state.mempool.txns.lookup key = some entry) (sender : entry.sender = some listener)
    (hears : Hears state listener ([] : List R) (some key)) (run : Run Serves state calls after)
    (fresh : listener ∉ calls.filterMap Call.listener) :
    Hears after listener ((calls.flatMap Call.committed).lookup key).toList
      (awaits key (calls.flatMap Call.committed)) := by
  induction run with
  | nil => exact hears
  | snoc before serves ih =>
      rw [List.filterMap_append, List.mem_append, not_or] at fresh
      rw [List.flatMap_append, List.flatMap_singleton]
      apply serves.hears_awaiting sender (pends_of_run found before) (ih fresh.1)
      intro isListener
      apply fresh.2
      rw [List.mem_filterMap]
      exact ⟨_, List.mem_cons_self, isListener⟩

omit [DecidableEq L] [DecidableEq S] in
theorem lookup_of_add {mempool added : Mempool K V L C S} {txn : V} {changes : List C}
    {sender : Option S} (accepted : mempool.add key txn changes sender = .ok added) :
    added.txns.lookup key = some ⟨txn, sender, changes⟩ := by
  rcases add_eq_ok accepted with ⟨new, rfl⟩
  rw [List.lookup_append, lookup_eq_none_iff.mpr new, Option.none_or, List.lookup_cons_self]

omit [DecidableEq L] in
/-- A new listener waits for the key. -/
theorem Hears.add {mempool added : Mempool K V L C S} {delivered : List (S × R)} {txn : V}
    {changes : List C} {sender : Option S} {listener : S}
    (hears : Hears ⟨mempool, delivered⟩ listener ([] : List R) none)
    (accepted : mempool.add key txn changes sender = .ok added) :
    Hears ⟨added, delivered⟩ listener ([] : List R) (some key) := by
  rcases add_eq_ok accepted with ⟨_, rfl⟩
  refine ⟨hears.results, ?_⟩
  intro other mem isSender
  rcases List.mem_append.mp mem with old | same
  · cases hears.waits other old isSender
  · rw [List.mem_singleton.mp same]

/-- For every sequence of calls: the transactions of a batch have no change in common;
a transaction that was added is pending, in the pool or in an open lease, until a commit names
its key; and its listener has received the first result that was committed for the key,
and nothing else.  Where commits name keys of their lease only, every batch returns. -/
theorem mempool_delivers :
    (∀ (calls : List (Call K V L C S R)) (state : Served K V L C S R),
      Run Serves {} calls state →
        (∀ lease maxCount next batch,
          state.mempool.leaseBatch lease maxCount = .ok (next, batch) →
            Apart state.mempool.txns batch) ∧
        ∀ key txn changes sender added, state.mempool.add key txn changes sender = .ok added →
          ∀ later after, Run Serves ⟨added, state.delivered⟩ later after →
            (key ∉ (later.flatMap Call.committed).map Prod.fst →
              after.mempool.txns.lookup key = some ⟨txn, sender, changes⟩ ∧
                (key ∈ after.mempool.pool ∨
                  ∃ lease, OpenLease ⟨added, state.delivered⟩ later after lease key)) ∧
            ∀ listener, sender = some listener →
              listener ∉ (calls ++ later).filterMap Call.listener →
                after.results listener = ((later.flatMap Call.committed).lookup key).toList) ∧
      ∀ (calls : List (Call K V L C S R)) (state : Served K V L C S R),
        Run (fun before call after => Serves before call after ∧ before.mempool.OwnKeys call)
          {} calls state →
        ∀ lease maxCount, ∃ result, state.mempool.leaseBatch lease maxCount = .ok result := by
  constructor
  · intro calls state run
    constructor
    · exact fun lease maxCount next batch leased => apart_of_leaseBatch leased
    intro key txn changes sender added accepted later after rest
    have found := lookup_of_add accepted
    constructor
    · intro unnamed
      have pending : after.mempool.txns.lookup key = some ⟨txn, sender, changes⟩ :=
        pends_of_run found rest (lookup_eq_none_iff.mpr unnamed)
      have pooled : key ∈ added.pool := by
        rcases add_eq_ok accepted with ⟨_, rfl⟩
        exact List.mem_append_right _ (List.mem_singleton_self key)
      have kept := (kept_of_run kept_empty run).add accepted
      exact ⟨pending, pooled_or_open_of_run kept found pooled rest unnamed⟩
    · rintro listener rfl fresh
      rw [List.filterMap_append, List.mem_append, not_or] at fresh
      have silent := hears_nothing_of_run run fresh.1
      exact (hears_of_run found rfl (silent.add accepted) rest fresh.2).results
  · exact fun calls state run lease maxCount =>
      (held_of_run run).divided.exists_leaseBatch lease maxCount

end

/-- A lease of two transactions is committed twice, and only the first one is named.  Its listener
hears the result of the first commit.  The other transaction is then in the lease of the next
batch, which is open. -/
theorem first_commit_heard :
    ∃ state : Served Nat Unit Nat Nat Nat Nat,
      Run Serves {} [.addWithListener 7 () [1] 3, .add 8 () [2], .leaseBatch 1 2, .commit 1 [(7, 5)],
          .commit 1 [(7, 6)], .leaseBatch 2 2] state ∧
        state.results 3 = [5] ∧ 8 ∉ state.mempool.pool ∧
        ∃ start calls lease, OpenLease start calls state lease 8 := by
  have first : ({} : Mempool Nat Unit Nat Nat Nat).add 7 () [1] (some 3) = .ok _ := rfl
  have second : (⟨[(7, ⟨(), some 3, [1]⟩)], [7], fun _ => []⟩ :
      Mempool Nat Unit Nat Nat Nat).add 8 () [2] none = .ok _ := rfl
  have batched : (⟨[(7, ⟨(), some 3, [1]⟩), (8, ⟨(), none, [2]⟩)], [7, 8], fun _ => []⟩ :
      Mempool Nat Unit Nat Nat Nat).leaseBatch 1 2 = .ok _ := rfl
  have addedFirst : Run Serves {}
      [(.addWithListener 7 () [1] 3 : Call Nat Unit Nat Nat Nat Nat)] ⟨_, []⟩ :=
    .snoc .nil (.returns (fun _ _ => nofun) (.addedWithListener first))
  have addedSecond : Run Serves ⟨_, []⟩ [(.add 8 () [2] : Call Nat Unit Nat Nat Nat Nat)] ⟨_, []⟩ :=
    .snoc .nil (.returns (fun _ _ => nofun) (.added second))
  have leased : Run Serves ⟨_, []⟩ [(.leaseBatch 1 2 : Call Nat Unit Nat Nat Nat Nat)] _ :=
    .snoc .nil (.returns (fun _ _ => nofun) (.leaseBatch batched))
  have committed : Run Serves _ [(.leaseBatch 1 2 : Call Nat Unit Nat Nat Nat Nat),
      .commit 1 [(7, 5)]] _ := .snoc leased (.returns (fun _ _ => nofun) (.commit (.refl _)))
  have committedAgain : Run Serves _ [(.leaseBatch 1 2 : Call Nat Unit Nat Nat Nat Nat),
      .commit 1 [(7, 5)], .commit 1 [(7, 6)]] _ :=
    .snoc committed (.returns (fun _ _ => nofun) (.commit (.refl _)))
  have later : Run Serves _ [(.leaseBatch 1 2 : Call Nat Unit Nat Nat Nat Nat),
      .commit 1 [(7, 5)], .commit 1 [(7, 6)], .leaseBatch 2 2] _ :=
    .snoc committedAgain (.returns (fun _ _ => nofun) (.leaseBatch rfl))
  have heard := ((mempool_delivers.1 [] {} .nil).2 7 () [1] (some 3) _ first _ _
    (addedSecond.trans later)).2 3 rfl (by decide)
  have kept := ((mempool_delivers.1 _ _ addedFirst).2 8 () [2] none _ second _ _ later).1
    (by decide)
  have notPooled := List.not_mem_nil (a := 8)
  exact ⟨_, addedFirst.trans (addedSecond.trans later), heard, notPooled, _, _,
    kept.2.resolve_left notPooled⟩

end Mempool

end Ciphera.Node
