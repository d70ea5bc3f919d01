import Ciphera.Lib.Run
import Ciphera.Node.Mempool

/-!
# Leases of keys that are not pending

The proposals of other nodes lease their keys whether or not the mempool has seen
them, and a commit forgets its keys whether or not another lease holds them.  A lease
may therefore hold keys without a transaction.  They go to the pool when the lease is
freed, and the next batch stops at them.

The keys of the map are divided between the pool and the leases in every state of a
run exactly when each call meets a condition on the state before it: an accepted key
is not leased already, a proposal names no pending key that another lease holds, and
a commit names every key of its lease that is not pending.
-/

namespace Ciphera.Node

open Ciphera.Lib

namespace Mempool

variable {K V L C S R : Type}

/-- The calls of a mempool. -/
inductive Call (K V L C S R : Type)
  | add (key : K) (txn : V) (changes : List C)
  | addWithListener (key : K) (txn : V) (changes : List C) (sender : S)
  | leaseTxns (lease : L) (keys : List K)
  | leaseBatch (lease : L) (maxCount : Nat)
  | commit (lease : L) (keysWithResults : List (K × R))

section

variable [DecidableEq K] [DecidableEq L] [DecidableEq C]

/-- The part of a commit before the lease is freed. -/
def commitKeys (mempool : Mempool K V L C S) (lease : L) (keysWithResults : List (K × R)) :
    Mempool K V L C S :=
  (keysWithResults.foldl (commitKey lease) (mempool, [])).1

/-- `free`, with the keys of the lease in some order. -/
def freeIn (mempool : Mempool K V L C S) (lease : L) (freed : List K) : Mempool K V L C S :=
  { mempool with
    pool := freed ++ mempool.pool
    leased := Function.update mempool.leased lease [] }

/-- The effect of a call.  A lease is a hash set: its keys are freed in any order. -/
inductive Step : Mempool K V L C S → Call K V L C S R → Mempool K V L C S → Prop
  | added {mempool next : Mempool K V L C S} {key : K} {txn : V} {changes : List C} :
      mempool.add key txn changes none = .ok next → Step mempool (.add key txn changes) next
  | refused {mempool : Mempool K V L C S} {key : K} {txn : V} {changes : List C}
      {error : AddError C} :
      mempool.add key txn changes none = .error error →
      Step mempool (.add key txn changes) mempool
  | addedWithListener {mempool next : Mempool K V L C S} {key : K} {txn : V} {changes : List C}
      {sender : S} :
      mempool.add key txn changes (some sender) = .ok next →
      Step mempool (.addWithListener key txn changes sender) next
  | refusedWithListener {mempool : Mempool K V L C S} {key : K} {txn : V} {changes : List C}
      {sender : S} {error : AddError C} :
      mempool.add key txn changes (some sender) = .error error →
      Step mempool (.addWithListener key txn changes sender) mempool
  | leaseTxns {mempool : Mempool K V L C S} {lease : L} {keys : List K} :
      Step mempool (.leaseTxns lease keys) (mempool.leaseTxns lease keys)
  | leaseBatch {mempool next : Mempool K V L C S} {lease : L} {maxCount : Nat}
      {batch : List (K × V)} :
      mempool.leaseBatch lease maxCount = .ok (next, batch) →
      Step mempool (.leaseBatch lease maxCount) next
  | commit {mempool : Mempool K V L C S} {lease : L} {keysWithResults : List (K × R)}
      {freed : List K} :
      freed.Perm ((mempool.commitKeys lease keysWithResults).leased lease) →
      Step mempool (.commit lease keysWithResults)
        ((mempool.commitKeys lease keysWithResults).freeIn lease freed)

/-- Every pending key is in the pool once or in exactly one lease, and every key in the
pool is pending. -/
structure Divided (mempool : Mempool K V L C S) : Prop where
  placed : ∀ key ∈ mempool.keys,
    (mempool.pool.count key = 1 ∧ ∀ lease, key ∉ mempool.leased lease) ∨
      (key ∉ mempool.pool ∧ ∃! lease, key ∈ mempool.leased lease)
  pending : ∀ key ∈ mempool.pool, key ∈ mempool.keys

/-- The key and the changes pass the checks of `_add`. -/
def Accepts (mempool : Mempool K V L C S) (key : K) (changes : List C) : Prop :=
  (changes.find? fun change =>
      mempool.txns.any fun entry => entry.2.changes.contains change) = none ∧
    key ∉ mempool.keys

/-- What a call must meet. -/
def Safe (mempool : Mempool K V L C S) : Call K V L C S R → Prop
  | .add key _ changes | .addWithListener key _ changes _ =>
      mempool.Accepts key changes → ∀ lease, key ∉ mempool.leased lease
  | .leaseTxns lease keys =>
      ∀ key ∈ keys, key ∈ mempool.keys → ∀ other, other ≠ lease → key ∉ mempool.leased other
  | .leaseBatch _ _ => True
  | .commit lease keysWithResults =>
      ∀ key ∈ mempool.leased lease, key ∉ keysWithResults.map Prod.fst → key ∈ mempool.keys

end

/-! ## Pools and leases as sets -/

section

variable [DecidableEq K]

/-- The same, in terms of membership. -/
theorem divided_iff {mempool : Mempool K V L C S} :
    mempool.Divided ↔ mempool.pool.Nodup ∧
      (∀ key ∈ mempool.pool, key ∈ mempool.keys ∧ ∀ lease, key ∉ mempool.leased lease) ∧
      ∀ key ∈ mempool.keys, key ∉ mempool.pool → ∃! lease, key ∈ mempool.leased lease := by
  constructor
  · intro divided
    have pooled : ∀ key ∈ mempool.pool,
        mempool.pool.count key = 1 ∧ ∀ lease, key ∉ mempool.leased lease := by
      intro key mem
      rcases divided.placed key (divided.pending key mem) with once | ⟨absent, _⟩
      · exact once
      · exact absurd mem absent
    refine ⟨List.nodup_iff_count_eq_one.mpr fun key mem => (pooled key mem).1, ?_, ?_⟩
    · exact fun key mem => ⟨divided.pending key mem, (pooled key mem).2⟩
    · intro key pending absent
      rcases divided.placed key pending with once | ⟨_, leased⟩
      · exact absurd (List.count_pos_iff.mp (once.1 ▸ Nat.one_pos)) absent
      · exact leased
  · rintro ⟨nodup, pooled, leased⟩
    refine ⟨?_, fun key mem => (pooled key mem).1⟩
    intro key pending
    by_cases mem : key ∈ mempool.pool
    · exact .inl ⟨List.count_eq_one_of_mem nodup mem, (pooled key mem).2⟩
    · exact .inr ⟨mem, leased key pending mem⟩

end

section

variable [DecidableEq K] [DecidableEq L]

theorem leaseTxns_eq (mempool : Mempool K V L C S) (lease : L) (keys : List K) :
    mempool.leaseTxns lease keys =
      { mempool with
        pool := mempool.pool.diff keys
        leased := Function.update mempool.leased lease
          (keys.foldl (fun leased key => leased.insert key) (mempool.leased lease)) } := by
  induction keys generalizing mempool with
  | nil => simp [leaseTxns]
  | cons key keys ih =>
      rw [leaseTxns, List.foldl_cons, ← leaseTxns, ih]
      simp [Mempool.lease, List.diff_cons]

theorem commitKeys_eq (mempool : Mempool K V L C S) (lease : L) (keysWithResults : List (K × R)) :
    mempool.commitKeys lease keysWithResults =
      { txns := mempool.txns.filter (·.1 ∉ keysWithResults.map Prod.fst)
        pool := mempool.pool.diff (keysWithResults.map Prod.fst)
        leased := Function.update mempool.leased lease
          ((mempool.leased lease).diff (keysWithResults.map Prod.fst)) } := by
  suffices folded : ∀ (mempool : Mempool K V L C S) (sent : List (S × R)),
      (keysWithResults.foldl (commitKey lease) (mempool, sent)).1 =
        { txns := mempool.txns.filter (·.1 ∉ keysWithResults.map Prod.fst)
          pool := mempool.pool.diff (keysWithResults.map Prod.fst)
          leased := Function.update mempool.leased lease
            ((mempool.leased lease).diff (keysWithResults.map Prod.fst)) } from
    folded mempool []
  induction keysWithResults with
  | nil => simp
  | cons first keysWithResults ih =>
      intro mempool sent
      rw [List.foldl_cons, commitKey, ih]
      simp only [List.map_cons, List.diff_cons, Function.update_self, Function.update_idem,
        List.filter_filter, List.mem_cons, not_or, mk.injEq, and_true]
      apply List.filter_congr
      intro entry _
      simp [Bool.and_comm]

/-- The keys of the lease that the commit does not name. -/
@[simp]
theorem leased_commitKeys (mempool : Mempool K V L C S) (lease : L)
    (keysWithResults : List (K × R)) :
    (mempool.commitKeys lease keysWithResults).leased lease =
      (mempool.leased lease).diff (keysWithResults.map Prod.fst) := by
  rw [commitKeys_eq]
  exact Function.update_self _ _ _

/-- The keys that are still pending. -/
@[simp]
theorem mem_keys_commitKeys {mempool : Mempool K V L C S} {lease : L}
    {keysWithResults : List (K × R)} {key : K} :
    key ∈ (mempool.commitKeys lease keysWithResults).keys ↔
      key ∈ mempool.keys ∧ key ∉ keysWithResults.map Prod.fst := by
  rw [commitKeys_eq, keys, keys]
  simp only [List.mem_map, List.mem_filter, decide_eq_true_eq]
  constructor
  · rintro ⟨entry, ⟨mem, kept⟩, rfl⟩
    exact ⟨⟨entry, mem, rfl⟩, kept⟩
  · rintro ⟨⟨entry, mem, rfl⟩, kept⟩
    exact ⟨entry, ⟨mem, kept⟩, rfl⟩

end

/-! ## One call -/

section

variable [DecidableEq K] [DecidableEq L] {mempool next : Mempool K V L C S} {lease : L}

omit [DecidableEq L] in
/-- Keys that are taken into a lease must not be held by another. -/
theorem Divided.take_iff {taken : List K} (divided : mempool.Divided)
    (sameKeys : next.keys = mempool.keys) (nodup : next.pool.Nodup)
    (pool_iff : ∀ key, key ∈ next.pool ↔ key ∈ mempool.pool ∧ key ∉ taken)
    (leased_iff : ∀ any key, key ∈ next.leased any ↔
      (any = lease ∧ key ∈ taken) ∨ key ∈ mempool.leased any) :
    next.Divided ↔ ∀ key ∈ taken, key ∈ mempool.keys →
      ∀ other, other ≠ lease → key ∉ mempool.leased other := by
  rcases divided_iff.mp divided with ⟨_, pooled, leased⟩
  rw [divided_iff, sameKeys]
  constructor
  · rintro ⟨_, _, placed⟩ key isTaken pending other differ held
    have notPooled : key ∉ next.pool := fun mem => ((pool_iff key).mp mem).2 isTaken
    rcases placed key pending notPooled with ⟨_, _, unique⟩
    apply differ
    rw [unique other ((leased_iff other key).mpr (.inr held)),
      unique lease ((leased_iff lease key).mpr (.inl ⟨rfl, isTaken⟩))]
  · intro unheld
    refine ⟨nodup, ?_, ?_⟩
    · intro key mem
      rcases (pool_iff key).mp mem with ⟨wasPooled, notTaken⟩
      refine ⟨(pooled key wasPooled).1, ?_⟩
      intro any held
      rcases (leased_iff any key).mp held with ⟨_, isTaken⟩ | before
      · exact notTaken isTaken
      · exact (pooled key wasPooled).2 any before
    · intro key pending absent
      by_cases isTaken : key ∈ taken
      · refine ⟨lease, (leased_iff lease key).mpr (.inl ⟨rfl, isTaken⟩), ?_⟩
        intro any held
        rcases (leased_iff any key).mp held with ⟨same, _⟩ | before
        · exact same
        · exact not_not.mp fun differ => unheld key isTaken pending any differ before
      · have notPooled : key ∉ mempool.pool := fun mem => absent ((pool_iff key).mpr ⟨mem, isTaken⟩)
        rcases leased key pending notPooled with ⟨holder, held, unique⟩
        refine ⟨holder, (leased_iff holder key).mpr (.inr held), ?_⟩
        intro any heldToo
        rcases (leased_iff any key).mp heldToo with ⟨_, impossible⟩ | before
        · exact absurd impossible isTaken
        · exact unique any before

theorem Divided.leaseTxns_iff {keys : List K} (divided : mempool.Divided) :
    (mempool.leaseTxns lease keys).Divided ↔ ∀ key ∈ keys, key ∈ mempool.keys →
      ∀ other, other ≠ lease → key ∉ mempool.leased other := by
  have nodup := (divided_iff.mp divided).1
  rw [leaseTxns_eq]
  exact divided.take_iff rfl nodup.diff (fun _ => nodup.mem_sdiff_iff) fun _ _ => mem_update_taken

theorem Divided.commit_iff {keysWithResults : List (K × R)} {freed : List K}
    (divided : mempool.Divided) (leasesNodup : ∀ any, (mempool.leased any).Nodup)
    (perm : freed.Perm ((mempool.commitKeys lease keysWithResults).leased lease)) :
    ((mempool.commitKeys lease keysWithResults).freeIn lease freed).Divided ↔
      ∀ key ∈ mempool.leased lease, key ∉ keysWithResults.map Prod.fst → key ∈ mempool.keys := by
  rcases divided_iff.mp divided with ⟨nodup, pooled, leased⟩
  rw [leased_commitKeys] at perm
  have freed_iff : ∀ key, key ∈ freed ↔
      key ∈ mempool.leased lease ∧ key ∉ keysWithResults.map Prod.fst := by
    intro key
    rw [perm.mem_iff, (leasesNodup lease).mem_sdiff_iff]
  have pool_iff : ∀ key, key ∈ ((mempool.commitKeys lease keysWithResults).freeIn lease freed).pool ↔
      key ∈ freed ∨ (key ∈ mempool.pool ∧ key ∉ keysWithResults.map Prod.fst) := by
    intro key
    rw [freeIn, List.mem_append, commitKeys_eq, nodup.mem_sdiff_iff]
  have leased_iff : ∀ any key,
      key ∈ ((mempool.commitKeys lease keysWithResults).freeIn lease freed).leased any ↔
        any ≠ lease ∧ key ∈ mempool.leased any := by
    intro any key
    rw [freeIn, commitKeys_eq]
    by_cases same : any = lease
    · subst same
      simp
    · simp [same]
  have keys_iff : ∀ key, key ∈ ((mempool.commitKeys lease keysWithResults).freeIn lease freed).keys ↔
      key ∈ mempool.keys ∧ key ∉ keysWithResults.map Prod.fst :=
    fun _ => mem_keys_commitKeys
  rw [divided_iff]
  constructor
  · rintro ⟨_, pending, _⟩ key held kept
    have mem := (pool_iff key).mpr (.inl ((freed_iff key).mpr ⟨held, kept⟩))
    exact ((keys_iff key).mp (pending key mem).1).1
  · intro leasedPending
    refine ⟨?_, ?_, ?_⟩
    · rw [freeIn, commitKeys_eq]
      apply List.Nodup.append (perm.nodup_iff.mpr (leasesNodup lease).diff) nodup.diff
      intro key isFreed stays
      exact (pooled key (nodup.mem_sdiff_iff.mp stays).1).2 lease ((freed_iff key).mp isFreed).1
    · intro key mem
      rcases (pool_iff key).mp mem with isFreed | ⟨wasPooled, kept⟩
      · rcases (freed_iff key).mp isFreed with ⟨held, kept⟩
        have wasPending := leasedPending key held kept
        refine ⟨(keys_iff key).mpr ⟨wasPending, kept⟩, ?_⟩
        intro any heldToo
        rcases (leased_iff any key).mp heldToo with ⟨differ, before⟩
        have notPooled : key ∉ mempool.pool := fun mem => (pooled key mem).2 lease held
        rcases leased key wasPending notPooled with ⟨_, _, unique⟩
        exact differ ((unique any before).trans (unique lease held).symm)
      · refine ⟨(keys_iff key).mpr ⟨(pooled key wasPooled).1, kept⟩, ?_⟩
        exact fun any held => (pooled key wasPooled).2 any ((leased_iff any key).mp held).2
    · intro key mem absent
      rcases (keys_iff key).mp mem with ⟨wasPending, kept⟩
      have notPooled : key ∉ mempool.pool :=
        fun mem => absent ((pool_iff key).mpr (.inr ⟨mem, kept⟩))
      rcases leased key wasPending notPooled with ⟨holder, held, unique⟩
      have differ : holder ≠ lease := by
        rintro rfl
        exact absent ((pool_iff key).mpr (.inl ((freed_iff key).mpr ⟨held, kept⟩)))
      refine ⟨holder, (leased_iff holder key).mpr ⟨differ, held⟩, ?_⟩
      exact fun any heldToo => unique any ((leased_iff any key).mp heldToo).2

end

section

variable [DecidableEq K] [DecidableEq L] [DecidableEq C] {mempool next : Mempool K V L C S}

omit [DecidableEq L] in
theorem add_eq_ok_iff {key : K} {txn : V} {changes : List C} {sender : Option S} :
    mempool.add key txn changes sender = .ok next ↔
      mempool.Accepts key changes ∧
        next = { mempool with
          txns := mempool.txns ++ [(key, ⟨txn, sender, changes⟩)]
          pool := mempool.pool ++ [key] } := by
  rw [Mempool.add, Accepts, keys, ← lookup_isSome_iff]
  constructor
  · intro added
    split at added
    · cases added
    · rename_i found
      split_ifs at added with duplicate
      exact ⟨⟨found, duplicate⟩, (Except.ok.inj added).symm⟩
  · rintro ⟨⟨found, new⟩, rfl⟩
    simp only [found]
    exact if_neg new

omit [DecidableEq L] in
theorem not_accepts_of_error {key : K} {txn : V} {changes : List C} {sender : Option S}
    {error : AddError C} (refused : mempool.add key txn changes sender = .error error) :
    ¬mempool.Accepts key changes := by
  intro accepts
  have added : mempool.add key txn changes sender = .ok _ := add_eq_ok_iff.mpr ⟨accepts, rfl⟩
  rw [refused] at added
  cases added

omit [DecidableEq L] in
theorem Divided.add_iff {key : K} {txn : V} {changes : List C} {sender : Option S}
    (divided : mempool.Divided) (added : mempool.add key txn changes sender = .ok next) :
    next.Divided ↔ ∀ lease, key ∉ mempool.leased lease := by
  rcases add_eq_ok added with ⟨new, rfl⟩
  rcases divided_iff.mp divided with ⟨nodup, pooled, leased⟩
  have notPooled : key ∉ mempool.pool := fun mem => new (pooled key mem).1
  have keysEq : ({ mempool with
      txns := mempool.txns ++ [(key, ⟨txn, sender, changes⟩)]
      pool := mempool.pool ++ [key] } : Mempool K V L C S).keys = mempool.keys ++ [key] := by
    simp [keys]
  rw [divided_iff, keysEq]
  constructor
  · rintro ⟨_, placed, _⟩
    exact (placed key (List.mem_append_right _ List.mem_cons_self)).2
  · intro unheld
    refine ⟨?_, ?_, ?_⟩
    · exact nodup.append (List.nodup_singleton key) (List.disjoint_singleton.mpr notPooled)
    · intro other mem
      rcases List.mem_append.mp mem with before | same
      · exact ⟨List.mem_append_left _ (pooled other before).1, (pooled other before).2⟩
      · rw [List.mem_singleton.mp same]
        exact ⟨List.mem_append_right _ List.mem_cons_self, unheld⟩
    · intro other mem absent
      rcases List.mem_append.mp mem with before | same
      · exact leased other before fun mem => absent (List.mem_append_left _ mem)
      · exact absurd (List.mem_append_right _ same) absent

/-- A batch takes keys that no lease holds. -/
theorem Divided.leaseBatch {lease : L} {maxCount : Nat} {batch : List (K × V)}
    (divided : mempool.Divided) (leased : mempool.leaseBatch lease maxCount = .ok (next, batch)) :
    next.Divided := by
  rcases leaseBatch_eq_ok leased with ⟨rest, perm, _, rfl⟩
  rcases divided_iff.mp divided with ⟨nodup, pooled, _⟩
  have parts := List.nodup_append.mp (perm.nodup_iff.mpr nodup)
  have pool_iff : ∀ key, key ∈ rest ↔ key ∈ mempool.pool ∧ key ∉ batch.map Prod.fst := by
    intro key
    rw [← perm.mem_iff, List.mem_append]
    constructor
    · intro stays
      exact ⟨.inr stays, fun taken => parts.2.2 key taken key stays rfl⟩
    · rintro ⟨taken | stays, notTaken⟩
      · exact absurd taken notTaken
      · exact stays
  have unheld : ∀ key ∈ batch.map Prod.fst, key ∈ mempool.keys →
      ∀ other, other ≠ lease → key ∉ mempool.leased other :=
    fun key taken _ other _ =>
      (pooled key (perm.mem_iff.mp (List.mem_append_left _ taken))).2 other
  exact Iff.mpr (divided.take_iff rfl parts.2.1 pool_iff fun _ _ => mem_update_taken) unheld

omit [DecidableEq L] in
theorem exists_leaseLoop {txns : List (K × MempoolTxn V C S)} (maxCount : Nat) {pool : List K}
    (pending : ∀ key ∈ pool, key ∈ txns.map Prod.fst) (leasing : Leasing K V C) :
    ∃ result, leaseLoop txns maxCount pool leasing = .ok result := by
  induction pool generalizing leasing with
  | nil => exact ⟨_, rfl⟩
  | cons key pool ih =>
      have rest := fun other mem => pending other (List.mem_cons_of_mem key mem)
      rcases Option.isSome_iff_exists.mp (lookup_isSome_iff.mpr (pending key List.mem_cons_self))
        with ⟨mempoolTxn, found⟩
      simp only [leaseLoop, found]
      split_ifs
      · exact ih rest _
      · exact ⟨_, rfl⟩
      · exact ih rest _

/-- The lookup of `lease_batch` succeeds. -/
theorem Divided.exists_leaseBatch (divided : mempool.Divided) (lease : L) (maxCount : Nat) :
    ∃ result, mempool.leaseBatch lease maxCount = .ok result := by
  rcases exists_leaseLoop maxCount divided.pending {} with ⟨⟨pool, leasing⟩, finished⟩
  rw [Mempool.leaseBatch, finished]
  exact ⟨_, rfl⟩

/-- The keys stay divided exactly when the call is safe. -/
theorem Step.divided_iff {call : Call K V L C S R} (divided : mempool.Divided)
    (leasesNodup : ∀ lease, (mempool.leased lease).Nodup) (step : Step mempool call next) :
    next.Divided ↔ mempool.Safe call := by
  cases step with
  | added added =>
      rw [divided.add_iff added, Safe, imp_iff_right (add_eq_ok_iff.mp added).1]
  | refused refused =>
      exact iff_of_true divided fun accepts => absurd accepts (not_accepts_of_error refused)
  | addedWithListener added =>
      rw [divided.add_iff added, Safe, imp_iff_right (add_eq_ok_iff.mp added).1]
  | refusedWithListener refused =>
      exact iff_of_true divided fun accepts => absurd accepts (not_accepts_of_error refused)
  | leaseTxns => exact divided.leaseTxns_iff
  | leaseBatch leased => exact iff_of_true (divided.leaseBatch leased) trivial
  | commit perm => exact divided.commit_iff leasesNodup perm

theorem Step.leasesNodup {call : Call K V L C S R}
    (leasesNodup : ∀ lease, (mempool.leased lease).Nodup) (step : Step mempool call next) :
    ∀ lease, (next.leased lease).Nodup := by
  have updated : ∀ (lease : L) {keys : List K}, keys.Nodup →
      ∀ any, (Function.update mempool.leased lease keys any).Nodup := by
    intro lease keys nodup any
    by_cases same : any = lease
    · rwa [same, Function.update_self]
    · rw [Function.update_of_ne same]
      exact leasesNodup any
  cases step with
  | added added | addedWithListener added =>
      rcases add_eq_ok added with ⟨_, rfl⟩
      exact leasesNodup
  | refused _ | refusedWithListener _ => exact leasesNodup
  | leaseTxns =>
      rw [leaseTxns_eq]
      exact updated _ (nodup_foldl_insertKey (leasesNodup _))
  | leaseBatch leased =>
      rcases leaseBatch_eq_ok leased with ⟨_, _, _, rfl⟩
      exact updated _ (nodup_foldl_insertKey (leasesNodup _))
  | commit _ =>
      rw [freeIn, commitKeys_eq, Function.update_idem]
      exact updated _ List.nodup_nil

/-! ## Runs -/

omit [DecidableEq L] [DecidableEq C] in
theorem divided_empty : ({} : Mempool K V L C S).Divided :=
  ⟨fun _ mem => absurd mem List.not_mem_nil, fun _ mem => absurd mem List.not_mem_nil⟩

/-- The keys are divided in every state that safe calls lead to, and no batch stops at a
missing key there.  A run that keeps them divided makes safe calls only. -/
theorem divided_of_safe_run {calls : List (Call K V L C S R)} :
    (Run (fun before call after => Step before call after ∧ before.Safe call) {} calls mempool →
        mempool.Divided ∧ ∀ lease maxCount, ∃ result,
          mempool.leaseBatch lease maxCount = .ok result) ∧
      (Run (fun before call after => Step before call after ∧ after.Divided) {} calls mempool →
        Run (fun before call after => Step before call after ∧ before.Safe call) {} calls
          mempool) := by
  constructor
  · intro run
    have sound : mempool.Divided ∧ ∀ lease, (mempool.leased lease).Nodup := by
      induction run with
      | nil => exact ⟨divided_empty, fun _ => List.nodup_nil⟩
      | snoc _ taken ih =>
          exact ⟨(taken.1.divided_iff ih.1 ih.2).mpr taken.2, taken.1.leasesNodup ih.2⟩
    exact ⟨sound.1, sound.1.exists_leaseBatch⟩
  · intro run
    have sound : Run (fun before call after => Step before call after ∧ before.Safe call) {} calls
        mempool ∧ mempool.Divided ∧ ∀ lease, (mempool.leased lease).Nodup := by
      induction run with
      | nil => exact ⟨.nil, divided_empty, fun _ => List.nodup_nil⟩
      | snoc _ taken ih =>
          rcases ih with ⟨run, divided, leasesNodup⟩
          have safe := (taken.1.divided_iff divided leasesNodup).mp taken.2
          exact ⟨.snoc run ⟨taken.1, safe⟩, taken.2, taken.1.leasesNodup leasesNodup⟩
    exact sound.1

/-- A pending key is leased and freed. -/
theorem freed_key_divided :
    ∃ mempool : Mempool Nat Unit Nat Unit Unit,
      Run (fun before call after => Step before call after ∧ before.Safe call) {}
          [(.add 7 () [] : Call Nat Unit Nat Unit Unit Unit), .leaseTxns 1 [7], .commit 1 []]
          mempool ∧
        mempool.pool = [7] ∧ mempool.Divided := by
  have added : Run (fun before call after => Step before call after ∧ before.Safe call)
      ({} : Mempool Nat Unit Nat Unit Unit)
      [(.add 7 () [] : Call Nat Unit Nat Unit Unit Unit)] _ :=
    .snoc .nil ⟨.added rfl, fun _ _ => List.not_mem_nil⟩
  have leased := Run.snoc added
    ⟨.leaseTxns, fun key (_ : key ∈ [7]) _ other (_ : other ≠ 1) => List.not_mem_nil⟩
  have committed : Run (fun before call after => Step before call after ∧ before.Safe call)
      ({} : Mempool Nat Unit Nat Unit Unit)
      [(.add 7 () [] : Call Nat Unit Nat Unit Unit Unit), .leaseTxns 1 [7], .commit 1 []] _ :=
    .snoc leased ⟨.commit (.refl _), fun key (held : key ∈ [7]) _ => held⟩
  exact ⟨_, committed, rfl, (divided_of_safe_run.1 committed).1⟩

/-- A key that was never added is leased, and freed by a commit of nothing. -/
theorem unseen_key_stops_batch :
    ∃ mempool : Mempool Nat Unit Nat Unit Unit,
      Run Step {} [(.leaseTxns 1 [7] : Call Nat Unit Nat Unit Unit Unit), .commit 1 []] mempool ∧
        ¬mempool.Divided ∧
        mempool.leaseBatch 2 1 = .error "key not found in txns" := by
  have leased : Run Step ({} : Mempool Nat Unit Nat Unit Unit)
      [(.leaseTxns 1 [7] : Call Nat Unit Nat Unit Unit Unit)] _ := .snoc .nil .leaseTxns
  refine ⟨_, .snoc leased (.commit (.refl _)), ?_, rfl⟩
  intro divided
  exact absurd (divided.pending 7 List.mem_cons_self) List.not_mem_nil

end

end Mempool

end Ciphera.Node
