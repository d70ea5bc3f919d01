import Ciphera.Lib.Check
import Ciphera.Lib.Map
import Mathlib.Data.List.Nodup
import Mathlib.Data.List.Pairwise
import Mathlib.Logic.Function.Basic

/-!
# The mempool

Pending transactions are kept by key, each with the changes it makes and the
sender that waits for its outcome.  A key is in the pool until it is leased to
a proposal; committing a lease drops some keys for good and returns the others
to the front of the pool.

The pool is generic in keys, transactions, leases and changes.  Hash maps and
sets are lists here, in order of insertion.
-/

namespace Ciphera.Node

open Ciphera.Lib

/-- Why a transaction is not added. -/
inductive AddError (C : Type)
  | conflict (change : C)
  | duplicateKey
  deriving DecidableEq, Repr

/-- A transaction with the one who waits for it and what it changes. -/
structure MempoolTxn (V C S : Type) where
  txn : V
  sender : Option S
  changes : List C

/-- The transactions, the pool that proposers take from, and what they have leased. -/
structure Mempool (K V L C S : Type) where
  txns : List (K × MempoolTxn V C S) := []
  pool : List K := []
  leased : L → List K := fun _ => []

namespace Mempool

variable {K V L C S R : Type} [DecidableEq K] [DecidableEq L] [DecidableEq C]

/-- Add a transaction, unless it changes the same as another one or its key is known. -/
def add (mempool : Mempool K V L C S) (key : K) (txn : V) (changes : List C)
    (sender : Option S) : Except (AddError C) (Mempool K V L C S) :=
  match changes.find? fun change => mempool.txns.any fun entry => entry.2.changes.contains change with
  | some conflict => .error (.conflict conflict)
  | none =>
      if (mempool.txns.lookup key).isSome then .error .duplicateKey
      else
        .ok
          { mempool with
            txns := mempool.txns ++ [(key, ⟨txn, sender, changes⟩)]
            pool := mempool.pool ++ [key] }

/-- Insert a key into the set of a lease. -/
def lease (mempool : Mempool K V L C S) (lease : L) (key : K) : Mempool K V L C S :=
  { mempool with
    leased := Function.update mempool.leased lease ((mempool.leased lease).insert key) }

/-- Return the keys of a lease to the front of the pool. -/
def free (mempool : Mempool K V L C S) (lease : L) : Mempool K V L C S :=
  { mempool with
    pool := (mempool.leased lease).reverse ++ mempool.pool
    leased := Function.update mempool.leased lease [] }

/-- Forget a committed key, telling its sender the result. -/
def commitKey (lease : L) (state : Mempool K V L C S × List (S × R)) (keyWithResult : K × R) :
    Mempool K V L C S × List (S × R) :=
  let (mempool, sent) := state
  let (key, result) := keyWithResult
  let sender := (mempool.txns.lookup key).bind MempoolTxn.sender
  ({ txns := mempool.txns.filter (·.1 ≠ key)
     pool := mempool.pool.erase key
     leased := Function.update mempool.leased lease ((mempool.leased lease).erase key) },
    sent ++ sender.toList.map (·, result))

/-- Remove transactions that are done, tell who waits for them, and end the lease. -/
def commit (mempool : Mempool K V L C S) (lease : L) (keysWithResults : List (K × R)) :
    Mempool K V L C S × List (S × R) :=
  let (mempool, sent) := keysWithResults.foldl (commitKey lease) (mempool, [])
  (mempool.free lease, sent)

/-- Lease the keys of another node's proposal, known or not. -/
def leaseTxns (mempool : Mempool K V L C S) (lease : L) (keys : List K) : Mempool K V L C S :=
  keys.foldl
    (fun mempool key => { mempool with pool := mempool.pool.erase key }.lease lease key) mempool

/-- What the loop of `lease_batch` has collected so far. -/
structure Leasing (K V C : Type) where
  txns : List (K × V) := []
  discard : List K := []
  conflictCheck : List C := []

/-- Take keys from the front of the pool until there are enough; a key whose
changes are already taken is put aside.  Returns the rest of the pool. -/
def leaseLoop (txns : List (K × MempoolTxn V C S)) (maxCount : Nat) :
    List K → Leasing K V C → Except String (List K × Leasing K V C)
  | [], leasing => .ok ([], leasing)
  | key :: pool, leasing =>
      match txns.lookup key with
      | none => .error "key not found in txns"
      | some mempoolTxn =>
          if mempoolTxn.changes.any (leasing.conflictCheck.contains ·) then
            leaseLoop txns maxCount pool { leasing with discard := leasing.discard ++ [key] }
          else
            let leasing :=
              { leasing with
                txns := leasing.txns ++ [(key, mempoolTxn.txn)]
                conflictCheck := leasing.conflictCheck ++ mempoolTxn.changes }
            if maxCount ≤ leasing.txns.length then .ok (pool, leasing)
            else leaseLoop txns maxCount pool leasing

/-- Lease transactions from the pool, up to a number. -/
def leaseBatch (mempool : Mempool K V L C S) (lease : L) (maxCount : Nat) :
    Except String (Mempool K V L C S × List (K × V)) := do
  let (pool, leasing) ← leaseLoop mempool.txns maxCount mempool.pool {}
  let leased := (leasing.txns.map Prod.fst).foldl (fun mempool key => mempool.lease lease key)
    { mempool with pool := pool ++ leasing.discard }
  pure (leased, leasing.txns)

/-! ## Keys -/

/-- The keys of all transactions. -/
def keys (mempool : Mempool K V L C S) : List K := mempool.txns.map Prod.fst

/-- Every key is either in the pool or in one lease, at most once, and is the
key of a pending transaction. -/
structure Partitioned (mempool : Mempool K V L C S) : Prop where
  keysNodup : mempool.keys.Nodup
  poolNodup : mempool.pool.Nodup
  leasedNodup : ∀ lease, (mempool.leased lease).Nodup
  poolFree : ∀ key ∈ mempool.pool, ∀ lease, key ∉ mempool.leased lease
  leasedOnce : ∀ first second, first ≠ second →
    ∀ key ∈ mempool.leased first, key ∉ mempool.leased second
  poolPending : ∀ key ∈ mempool.pool, key ∈ mempool.keys
  leasedPending : ∀ lease, ∀ key ∈ mempool.leased lease, key ∈ mempool.keys

omit [DecidableEq K] [DecidableEq L] [DecidableEq C] in
theorem partitioned_empty : ({} : Mempool K V L C S).Partitioned where
  keysNodup := List.nodup_nil
  poolNodup := List.nodup_nil
  leasedNodup _ := List.nodup_nil
  poolFree _ mem := by simp at mem
  leasedOnce _ _ _ _ mem := by simp at mem
  poolPending _ mem := by simp at mem
  leasedPending _ _ mem := by simp at mem

omit [DecidableEq L] in
/-- What adding a transaction does when it succeeds. -/
theorem add_eq_ok {mempool next : Mempool K V L C S} {key : K} {txn : V} {changes : List C}
    {sender : Option S} (added : mempool.add key txn changes sender = .ok next) :
    key ∉ mempool.keys ∧
      next = { mempool with
        txns := mempool.txns ++ [(key, ⟨txn, sender, changes⟩)]
        pool := mempool.pool ++ [key] } := by
  unfold add at added
  split at added
  · simp at added
  · split_ifs at added with duplicate
    rw [lookup_isSome_iff] at duplicate
    exact ⟨duplicate, (Except.ok.inj added).symm⟩

omit [DecidableEq L] in
theorem Partitioned.add {mempool next : Mempool K V L C S} {key : K} {txn : V}
    {changes : List C} {sender : Option S} (partitioned : mempool.Partitioned)
    (added : mempool.add key txn changes sender = .ok next) : next.Partitioned := by
  obtain ⟨new, rfl⟩ := add_eq_ok added
  have keysEq : ({ mempool with
      txns := mempool.txns ++ [(key, ⟨txn, sender, changes⟩)]
      pool := mempool.pool ++ [key] } : Mempool K V L C S).keys = mempool.keys ++ [key] := by
    simp [keys]
  have notPooled : key ∉ mempool.pool := fun pooled => new (partitioned.poolPending key pooled)
  constructor
  · rw [keysEq]
    exact partitioned.keysNodup.append (List.nodup_singleton key) (by simpa using new)
  · exact partitioned.poolNodup.append (List.nodup_singleton key) (by simpa using notPooled)
  · exact partitioned.leasedNodup
  · intro other mem lease leased
    rcases List.mem_append.mp mem with pooled | same
    · exact partitioned.poolFree other pooled lease leased
    · exact new (List.mem_singleton.mp same ▸ partitioned.leasedPending lease other leased)
  · exact partitioned.leasedOnce
  · intro other mem
    rw [keysEq]
    rcases List.mem_append.mp mem with pooled | same
    · exact List.mem_append_left _ (partitioned.poolPending other pooled)
    · exact List.mem_append_right _ same
  · intro lease other leased
    rw [keysEq]
    exact List.mem_append_left _ (partitioned.leasedPending lease other leased)

omit [DecidableEq C] in
/-- Keys taken into a lease. -/
theorem foldl_lease (mempool : Mempool K V L C S) (lease : L) (taken : List K) :
    taken.foldl (fun mempool key => mempool.lease lease key) mempool =
      { mempool with
        leased := Function.update mempool.leased lease
          (taken.foldl (fun leased key => leased.insert key) (mempool.leased lease)) } := by
  induction taken generalizing mempool with
  | nil => simp
  | cons key taken ih =>
      rw [List.foldl_cons, ih]
      simp [Mempool.lease]

omit [DecidableEq L] [DecidableEq C] in
@[simp]
theorem mem_foldl_insertKey {taken leased : List K} {key : K} :
    key ∈ taken.foldl (fun leased key => leased.insert key) leased ↔
      key ∈ taken ∨ key ∈ leased := by
  induction taken generalizing leased with
  | nil => simp
  | cons first taken ih =>
      rw [List.foldl_cons, ih, List.mem_insert_iff, List.mem_cons]
      exact or_left_comm.trans or_assoc.symm

omit [DecidableEq L] [DecidableEq C] in
theorem nodup_foldl_insertKey {taken leased : List K} (nodup : leased.Nodup) :
    (taken.foldl (fun leased key => leased.insert key) leased).Nodup := by
  induction taken generalizing leased with
  | nil => exact nodup
  | cons first taken ih => exact ih (nodup.insert)

omit [DecidableEq C] in
/-- A key is leased afterwards when it was before or when it has been taken. -/
@[simp]
theorem mem_update_taken {leased : L → List K} {lease any : L} {taken : List K} {key : K} :
    key ∈ Function.update leased lease
        (taken.foldl (fun leased key => leased.insert key) (leased lease)) any ↔
      (any = lease ∧ key ∈ taken) ∨ key ∈ leased any := by
  by_cases same : any = lease
  · subst same
    rw [Function.update_self, mem_foldl_insertKey]
    simp
  · rw [Function.update_of_ne same]
    simp [same]

/-- The loop distributes the keys of the pool and takes each transaction from
the map. -/
theorem leaseLoop_eq_ok {txns : List (K × MempoolTxn V C S)} {maxCount : Nat} {pool rest : List K}
    {leasing final : Leasing K V C}
    (finished : leaseLoop txns maxCount pool leasing = .ok (rest, final)) :
    (final.txns.map Prod.fst ++ final.discard ++ rest).Perm
        (leasing.txns.map Prod.fst ++ leasing.discard ++ pool) ∧
      ∀ entry ∈ final.txns, entry ∈ leasing.txns ∨
        ∃ mempoolTxn, (entry.1, mempoolTxn) ∈ txns ∧ mempoolTxn.txn = entry.2 := by
  induction pool generalizing leasing with
  | nil =>
      obtain ⟨rfl, rfl⟩ := Prod.mk.inj (Except.ok.inj finished)
      exact ⟨.refl _, fun entry mem => Or.inl mem⟩
  | cons key pool ih =>
      rw [leaseLoop] at finished
      cases found : txns.lookup key with
      | none => simp [found] at finished
      | some mempoolTxn =>
          simp only [found] at finished
          split at finished
          · obtain ⟨perm, origin⟩ := ih finished
            refine ⟨perm.trans ?_, origin⟩
            rw [List.perm_iff_count]
            intro other
            simp only [List.count_append, List.count_cons, List.count_nil]
            omega
          · have origin_of : ∀ entry ∈ leasing.txns ++ [(key, mempoolTxn.txn)],
                entry ∈ leasing.txns ∨
                  ∃ mempoolTxn, (entry.1, mempoolTxn) ∈ txns ∧ mempoolTxn.txn = entry.2 := by
              intro entry mem
              rcases List.mem_append.mp mem with old | new
              · exact Or.inl old
              · rw [List.mem_singleton.mp new]
                exact Or.inr ⟨mempoolTxn, mem_of_lookup found, rfl⟩
            have perm_of : ((leasing.txns ++ [(key, mempoolTxn.txn)]).map Prod.fst ++
                leasing.discard ++ pool).Perm
                  (leasing.txns.map Prod.fst ++ leasing.discard ++ key :: pool) := by
              rw [List.perm_iff_count]
              intro other
              simp only [List.map_append, List.map_cons, List.map_nil, List.count_append,
                List.count_cons, List.count_nil]
              omega
            split at finished
            · obtain ⟨rfl, rfl⟩ := Prod.mk.inj (Except.ok.inj finished)
              exact ⟨perm_of, origin_of⟩
            · obtain ⟨perm, origin⟩ := ih finished
              exact ⟨perm.trans perm_of, fun entry mem =>
                (origin entry mem).elim (origin_of entry) Or.inr⟩

/-- What leasing a batch does when it succeeds. -/
theorem leaseBatch_eq_ok {mempool next : Mempool K V L C S} {lease : L} {maxCount : Nat}
    {batch : List (K × V)} (leased : mempool.leaseBatch lease maxCount = .ok (next, batch)) :
    ∃ rest, (batch.map Prod.fst ++ rest).Perm mempool.pool ∧
      (∀ entry ∈ batch, ∃ mempoolTxn, (entry.1, mempoolTxn) ∈ mempool.txns ∧
        mempoolTxn.txn = entry.2) ∧
      next = { mempool with
        pool := rest
        leased := Function.update mempool.leased lease ((batch.map Prod.fst).foldl
          (fun leased key => leased.insert key) (mempool.leased lease)) } := by
  simp only [leaseBatch, bind_eq_ok_iff, pure_eq_ok_iff] at leased
  obtain ⟨⟨pool, leasing⟩, finished, result⟩ := leased
  obtain ⟨nextEq, rfl⟩ := Prod.mk.inj result
  obtain ⟨perm, origin⟩ := leaseLoop_eq_ok finished
  refine ⟨pool ++ leasing.discard, ?_, ?_, ?_⟩
  · refine List.Perm.trans ?_ perm
    rw [List.append_assoc]
    exact List.perm_append_comm.append_left _
  · exact fun entry mem => (origin entry mem).resolve_left (by simp)
  · rw [← nextEq, foldl_lease]

theorem Partitioned.leaseBatch {mempool next : Mempool K V L C S} {lease : L} {maxCount : Nat}
    {batch : List (K × V)} (partitioned : mempool.Partitioned)
    (leased : mempool.leaseBatch lease maxCount = .ok (next, batch)) :
    next.Partitioned ∧ (batch.map Prod.fst).Nodup := by
  obtain ⟨rest, perm, _, rfl⟩ := leaseBatch_eq_ok leased
  have nodup := List.nodup_append.mp (perm.nodup_iff.mpr partitioned.poolNodup)
  have taken_pool : ∀ key ∈ batch.map Prod.fst, key ∈ mempool.pool :=
    fun key mem => perm.mem_iff.mp (List.mem_append_left _ mem)
  have rest_pool : ∀ key ∈ rest, key ∈ mempool.pool :=
    fun key mem => perm.mem_iff.mp (List.mem_append_right _ mem)
  have leased_iff : ∀ any key, key ∈ Function.update mempool.leased lease
      ((batch.map Prod.fst).foldl (fun leased key => leased.insert key) (mempool.leased lease)) any ↔
        (any = lease ∧ key ∈ batch.map Prod.fst) ∨ key ∈ mempool.leased any :=
    fun _ _ => mem_update_taken
  refine ⟨⟨partitioned.keysNodup, nodup.2.1, ?_, ?_, ?_, ?_, ?_⟩, nodup.1⟩
  · intro any
    by_cases same : any = lease
    · subst same
      simp only [Function.update_self]
      exact nodup_foldl_insertKey (partitioned.leasedNodup any)
    · simp only [Function.update_of_ne same]
      exact partitioned.leasedNodup any
  · intro key mem any held
    rcases (leased_iff any key).mp held with ⟨_, taken⟩ | before
    · exact nodup.2.2 key taken key mem rfl
    · exact partitioned.poolFree key (rest_pool key mem) any before
  · intro first second differ key held heldTwice
    rcases (leased_iff first key).mp held with ⟨firstSame, taken⟩ | before
    · rcases (leased_iff second key).mp heldTwice with ⟨secondSame, _⟩ | beforeTwice
      · exact differ (firstSame.trans secondSame.symm)
      · exact partitioned.poolFree key (taken_pool key taken) second beforeTwice
    · rcases (leased_iff second key).mp heldTwice with ⟨_, taken⟩ | beforeTwice
      · exact partitioned.poolFree key (taken_pool key taken) first before
      · exact partitioned.leasedOnce first second differ key before beforeTwice
  · exact fun key mem => partitioned.poolPending key (rest_pool key mem)
  · intro any key held
    rcases (leased_iff any key).mp held with ⟨_, taken⟩ | before
    · exact partitioned.poolPending key (taken_pool key taken)
    · exact partitioned.leasedPending any key before

omit [DecidableEq C] in
/-- Forgetting a key that no other lease holds. -/
theorem Partitioned.commitKey {mempool : Mempool K V L C S} {lease : L} {sent : List (S × R)}
    {keyWithResult : K × R} (partitioned : mempool.Partitioned)
    (unheld : ∀ other, other ≠ lease → keyWithResult.1 ∉ mempool.leased other) :
    (Mempool.commitKey lease (mempool, sent) keyWithResult).1.Partitioned := by
  obtain ⟨key, result⟩ := keyWithResult
  have keysEq : (mempool.txns.filter (·.1 ≠ key)).map Prod.fst =
      mempool.keys.filter (· ≠ key) := by
    rw [keys, List.filter_map]
    rfl
  have erase_iff : ∀ other, other ∈ mempool.pool.erase key ↔ other ≠ key ∧ other ∈ mempool.pool :=
    fun other => partitioned.poolNodup.mem_erase_iff
  have leased_iff : ∀ any other, other ∈ Function.update mempool.leased lease
      ((mempool.leased lease).erase key) any ↔ other ≠ key ∧ other ∈ mempool.leased any := by
    intro any other
    by_cases same : any = lease
    · subst same
      rw [Function.update_self]
      exact (partitioned.leasedNodup any).mem_erase_iff
    · rw [Function.update_of_ne same]
      exact ⟨fun held => ⟨fun equal => unheld any same (equal ▸ held), held⟩, fun held => held.2⟩
  constructor
  · rw [Mempool.commitKey, keys, keysEq]
    exact partitioned.keysNodup.filter _
  · exact partitioned.poolNodup.erase key
  · intro any
    by_cases same : any = lease
    · subst same
      simp only [Mempool.commitKey, Function.update_self]
      exact (partitioned.leasedNodup any).erase key
    · simp only [Mempool.commitKey, Function.update_of_ne same]
      exact partitioned.leasedNodup any
  · intro other mem any held
    exact partitioned.poolFree other ((erase_iff other).mp mem).2 any ((leased_iff any other).mp held).2
  · intro first second differ other held heldTwice
    exact partitioned.leasedOnce first second differ other ((leased_iff first other).mp held).2
      ((leased_iff second other).mp heldTwice).2
  · intro other mem
    obtain ⟨differ, pooled⟩ := (erase_iff other).mp mem
    rw [Mempool.commitKey, keys, keysEq, List.mem_filter]
    exact ⟨partitioned.poolPending other pooled, by simpa using differ⟩
  · intro any other held
    obtain ⟨differ, held⟩ := (leased_iff any other).mp held
    rw [Mempool.commitKey, keys, keysEq, List.mem_filter]
    exact ⟨partitioned.leasedPending any other held, by simpa using differ⟩

omit [DecidableEq C] [DecidableEq K] in
theorem Partitioned.free {mempool : Mempool K V L C S} (partitioned : mempool.Partitioned)
    (lease : L) : (mempool.free lease).Partitioned := by
  have leased_iff : ∀ any other, other ∈ (mempool.free lease).leased any ↔
      any ≠ lease ∧ other ∈ mempool.leased any := by
    intro any other
    by_cases same : any = lease
    · subst same
      simp [Mempool.free]
    · simp [Mempool.free, same]
  have pool_iff : ∀ other, other ∈ (mempool.free lease).pool ↔
      other ∈ mempool.leased lease ∨ other ∈ mempool.pool := by
    simp [Mempool.free]
  constructor
  · exact partitioned.keysNodup
  · exact (List.nodup_reverse.mpr (partitioned.leasedNodup lease)).append partitioned.poolNodup
      fun other held pooled =>
        partitioned.poolFree other pooled lease (List.mem_reverse.mp held)
  · intro any
    by_cases same : any = lease
    · subst same
      simp [Mempool.free]
    · simp only [Mempool.free, Function.update_of_ne same]
      exact partitioned.leasedNodup any
  · intro other mem any held
    obtain ⟨differ, held⟩ := (leased_iff any other).mp held
    rcases (pool_iff other).mp mem with freed | pooled
    · exact partitioned.leasedOnce any lease differ other held freed
    · exact partitioned.poolFree other pooled any held
  · intro first second differ other held heldTwice
    exact partitioned.leasedOnce first second differ other ((leased_iff first other).mp held).2
      ((leased_iff second other).mp heldTwice).2
  · intro other mem
    rcases (pool_iff other).mp mem with freed | pooled
    · exact partitioned.leasedPending lease other freed
    · exact partitioned.poolPending other pooled
  · exact fun any other held => partitioned.leasedPending any other ((leased_iff any other).mp held).2

omit [DecidableEq C] in
/-- Committing keys that no other lease holds. -/
theorem Partitioned.commit {mempool : Mempool K V L C S} {lease : L}
    {keysWithResults : List (K × R)} (partitioned : mempool.Partitioned)
    (unheld : ∀ other, other ≠ lease → ∀ entry ∈ keysWithResults,
      entry.1 ∉ mempool.leased other) :
    (mempool.commit lease keysWithResults).1.Partitioned := by
  suffices folded : ∀ sent : List (S × R),
      (keysWithResults.foldl (Mempool.commitKey lease) (mempool, sent)).1.Partitioned from
    (folded []).free lease
  induction keysWithResults generalizing mempool with
  | nil => exact fun _ => partitioned
  | cons first keysWithResults ih =>
      intro sent
      have step : (Mempool.commitKey lease (mempool, sent) first).1.Partitioned :=
        partitioned.commitKey fun other differ => unheld other differ first List.mem_cons_self
      refine ih step (fun other differ entry mem held => ?_) _
      -- Other leases are left alone.
      rw [Mempool.commitKey] at held
      simp only [Function.update_of_ne differ] at held
      exact unheld other differ entry (List.mem_cons_of_mem _ mem) held

omit [DecidableEq C] in
/-- Committing forgets transactions and frees the lease. -/
theorem commit_spec (mempool : Mempool K V L C S) (lease : L) (keysWithResults : List (K × R)) :
    (mempool.commit lease keysWithResults).1.txns.Sublist mempool.txns ∧
      (mempool.commit lease keysWithResults).1.leased =
        Function.update mempool.leased lease [] := by
  suffices folded : ∀ (mempool : Mempool K V L C S) (sent : List (S × R)),
      let final := (keysWithResults.foldl (Mempool.commitKey lease) (mempool, sent)).1
      final.txns.Sublist mempool.txns ∧
        Function.update final.leased lease [] = Function.update mempool.leased lease [] from
    folded mempool []
  induction keysWithResults with
  | nil => exact fun mempool _ => ⟨.refl _, rfl⟩
  | cons first keysWithResults ih =>
      intro mempool sent
      obtain ⟨sublist, leasedEq⟩ := ih (Mempool.commitKey lease (mempool, sent) first).1
        (Mempool.commitKey lease (mempool, sent) first).2
      refine ⟨sublist.trans List.filter_sublist, leasedEq.trans ?_⟩
      simp [Mempool.commitKey]

/-! ## Labels

A part of a transaction that no two pending transactions share. -/

section Labels

variable {M : Type} (label : V → Option M)

/-- The labels of the pending transactions. -/
def labels (mempool : Mempool K V L C S) : List M :=
  mempool.txns.filterMap fun entry => label entry.2.txn

omit [DecidableEq L] in
theorem labels_add {mempool next : Mempool K V L C S} {key : K} {txn : V} {changes : List C}
    {sender : Option S} (added : mempool.add key txn changes sender = .ok next) :
    next.labels label = mempool.labels label ++ (label txn).toList := by
  obtain ⟨_, rfl⟩ := add_eq_ok added
  cases labelEq : label txn <;> simp [labels, labelEq]

omit [DecidableEq C] in
theorem labels_commit_sublist (mempool : Mempool K V L C S) (lease : L)
    (keysWithResults : List (K × R)) :
    ((mempool.commit lease keysWithResults).1.labels label).Sublist (mempool.labels label) :=
  (mempool.commit_spec lease keysWithResults).1.filterMap _

theorem labels_leaseBatch {mempool next : Mempool K V L C S} {lease : L} {maxCount : Nat}
    {batch : List (K × V)} (leased : mempool.leaseBatch lease maxCount = .ok (next, batch)) :
    next.labels label = mempool.labels label := by
  obtain ⟨_, _, _, rfl⟩ := leaseBatch_eq_ok leased
  rfl

/-- A batch has each transaction once, so its labels differ when those of the
pending transactions do. -/
theorem nodup_labels_of_leaseBatch {mempool next : Mempool K V L C S} {lease : L}
    {maxCount : Nat} {batch : List (K × V)} (partitioned : mempool.Partitioned)
    (nodup : (mempool.labels label).Nodup)
    (leased : mempool.leaseBatch lease maxCount = .ok (next, batch)) :
    (batch.filterMap fun entry => label entry.2).Nodup := by
  obtain ⟨_, keysNodup⟩ := partitioned.leaseBatch leased
  obtain ⟨_, _, pending, _⟩ := leaseBatch_eq_ok leased
  have distinct : mempool.txns.Pairwise fun first second =>
      ∀ mark, label first.2.txn = some mark → ∀ other, label second.2.txn = some other →
        mark ≠ other := List.pairwise_filterMap.mp nodup
  have symmetric : Std.Symm fun first second : K × MempoolTxn V C S =>
      ∀ mark, label first.2.txn = some mark → ∀ other, label second.2.txn = some other →
        mark ≠ other :=
    ⟨fun first second differ mark markEq other otherEq equal =>
      differ other otherEq mark markEq equal.symm⟩
  refine List.pairwise_filterMap.mpr ((List.pairwise_map.mp keysNodup).imp_of_mem ?_)
  intro first second firstMem secondMem differ mark markEq other otherEq
  obtain ⟨firstTxn, firstPending, firstEq⟩ := pending first firstMem
  obtain ⟨secondTxn, secondPending, secondEq⟩ := pending second secondMem
  rw [← firstEq] at markEq
  rw [← secondEq] at otherEq
  exact distinct.forall firstPending secondPending
    (fun equal => differ (Prod.mk.inj equal).1) mark markEq other otherEq

end Labels

end Mempool

end Ciphera.Node
