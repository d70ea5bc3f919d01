import Ciphera.Rollup.Calls

/-!
# The list of verifier keys

Beside the verifiers the contract keeps an array of the keys they are registered under.
Adding a verifier and removing it edit both, the removal with a search that moves the last
key into the gap.
-/

namespace Ciphera.Rollup

open Ciphera.Lib

/-! ## Removal by the last item -/

section Removal

variable {α : Type}

/-- Overwriting an item with the last one and dropping the last place removes the item. -/
theorem perm_dropLast_set {items : List α} {index : Nat} {item last : α}
    (found : items[index]? = some item) (lastEq : items.getLast? = some last) :
    (item :: (items.set index last).dropLast).Perm items := by
  rcases List.getLast?_eq_some_iff.mp lastEq with ⟨front, rfl⟩
  rcases Nat.lt_or_ge index front.length with inFront | atLast
  · rw [List.getElem?_append_left inFront, List.getElem?_eq_some_iff] at found
    rcases found with ⟨_, itemEq⟩
    rw [List.set_append_left _ _ inFront, List.dropLast_concat,
      List.set_eq_take_append_cons_drop, if_pos inFront]
    have split : front.take index ++ item :: front.drop (index + 1) = front := by
      rw [← itemEq, List.cons_getElem_drop_succ, List.take_append_drop]
    calc (item :: (front.take index ++ last :: front.drop (index + 1))).Perm
          (item :: last :: (front.take index ++ front.drop (index + 1))) :=
            List.perm_middle.cons item
      _ |>.Perm (last :: item :: (front.take index ++ front.drop (index + 1))) :=
            List.Perm.swap _ _ _
      _ |>.Perm (last :: (front.take index ++ item :: front.drop (index + 1))) :=
            List.perm_middle.symm.cons last
      _ |>.Perm (front ++ [last]) := by
            rw [split]
            exact (List.perm_append_singleton _ _).symm
  · rw [List.getElem?_append_right atLast] at found
    have place : index - front.length = 0 := by
      have inside := (List.getElem?_eq_some_iff.mp found).1
      rw [List.length_singleton] at inside
      exact Nat.lt_one_iff.mp inside
    rw [place] at found
    cases found
    rw [List.set_append_right _ _ atLast, place, List.set_cons_zero, List.dropLast_concat]
    exact (List.perm_append_singleton _ _).symm

end Removal

/-- The contract with the array of its verifier keys. -/
structure Registry (W : Type) where
  contract : RollupV1 W
  zkVerifierKeys : List Element

/-- The loop of `removeZkVerifier`, which ends at the first place of the key. -/
def removeKey (zkVerifierKeys : List Element) (verificationKeyHash : Element) : List Element :=
  match zkVerifierKeys.idxOf? verificationKeyHash, zkVerifierKeys.getLast? with
  | some index, some last => (zkVerifierKeys.set index last).dropLast
  | _, _ => zkVerifierKeys

namespace Registry

variable {W : Type}

/-- The array after a call that does not revert. -/
def keysAfter (registry : Registry W) : RollupV1.Call → List Element
  | .addZkVerifier verificationKeyHash _ _ =>
      if (registry.contract.zkVerifiers verificationKeyHash).enabled then registry.zkVerifierKeys
      else registry.zkVerifierKeys ++ [verificationKeyHash]
  | .removeZkVerifier verificationKeyHash =>
      removeKey registry.zkVerifierKeys verificationKeyHash
  | _ => registry.zkVerifierKeys

/-- `initialize` -/
def initializeV1 (world : W) (blockNumber : Element)
    (owner escrowManager tokenAddress verifierAddress prover : Address)
    (initialValidators : List Address) (verifierKeyHash : Element) : Outcome (Registry W) := do
  let contract ← RollupV1.initializeV1 world blockNumber owner escrowManager tokenAddress
    verifierAddress prover initialValidators verifierKeyHash
  pure ⟨contract, [verifierKeyHash]⟩

/-- A call that reverts leaves the array alone, too. -/
def keysAfterAction (registry : Registry W) : RollupV1.Action W → List Element
  | .accepted _ request => registry.keysAfter request
  | .reverted .. | .elsewhere _ => registry.zkVerifierKeys

/-- A step of the contract, with the array. -/
structure Step (externals : Externals W) (here : Address) (source : Registry W)
    (action : RollupV1.Action W) (target : Registry W) : Prop where
  contract : RollupV1.Step externals here source.contract action target.contract
  zkVerifierKeys : target.zkVerifierKeys = source.keysAfterAction action

/-- One call after the other, until one reverts. -/
def calls (externals : Externals W) (here : Address) (requests : List (Env × RollupV1.Call))
    (registry : Registry W) : Outcome (Registry W) :=
  requests.foldlM
    (fun registry request => do
      let contract ← registry.contract.call externals here request.1 request.2
      pure ⟨contract, registry.keysAfter request.2⟩)
    registry

/-- The array lists the keys of the enabled verifiers, each one once. -/
structure Lists (registry : Registry W) : Prop where
  nodup : registry.zkVerifierKeys.Nodup
  mem_iff : ∀ key, key ∈ registry.zkVerifierKeys ↔
    (registry.contract.zkVerifiers key).enabled = true

variable {externals : Externals W} {here : Address} {registry : Registry W}

/-- The calls that edit the registry. -/
def editsVerifiers : RollupV1.Call → Bool
  | .addZkVerifier .. | .removeZkVerifier _ => true
  | _ => false

/-- No other call touches a verifier. -/
theorem zkVerifiers_of_call {env : Env} {contract next : RollupV1 W} {request : RollupV1.Call}
    (other : editsVerifiers request = false)
    (done : contract.call externals here env request = .ok next) :
    next.zkVerifiers = contract.zkVerifiers := by
  cases request with
  | addZkVerifier | removeZkVerifier => cases other
  | addToken => cases done
  | addProver | addBurnSubstitutor | removeBurnSubstitutor | renounceOwnership =>
      rcases bind_eq_ok_iff.mp done with ⟨_, _, result⟩
      cases pure_eq_ok_iff.mp result
      rfl
  | removeProver | setGlobalTvlCap | setOpenProvingDelay | setBurnFee | setFeeSink
  | setEscrowManager | transferOwnership =>
      rcases bind_eq_ok_iff.mp done with ⟨_, _, done⟩
      rcases bind_eq_ok_iff.mp done with ⟨_, _, result⟩
      cases pure_eq_ok_iff.mp result
      rfl
  | setPerMintCap =>
      rcases bind_eq_ok_iff.mp done with ⟨_, _, done⟩
      rcases bind_eq_ok_iff.mp done with ⟨_, _, done⟩
      rcases bind_eq_ok_iff.mp done with ⟨_, _, result⟩
      cases pure_eq_ok_iff.mp result
      rfl
  | initializeV2 => rw [(RollupV1.eq_upgraded_of_initializeV2 done).2.2]; rfl
  | setValidators =>
      rcases RollupV1.setValidators_eq_ok done with ⟨_, _, rfl⟩
      rfl
  | verifyRollup =>
      rcases RollupV1.accepts_of_verifyRollup done with ⟨_, accepts, _⟩
      exact (congrArg Contract.zkVerifiers accepts.effect).trans rfl
  | substituteBurn =>
      rcases (RollupV1.substitutes_of_substituteBurn done).paid with ⟨_, _, _, _, rfl⟩
      rfl
  | mint =>
      rcases RollupV1.mint_eq_ok_iff.mp done with ⟨_, _, _, rfl⟩
      rfl
  | mintClaimed =>
      rcases RollupV1.mintClaimed_eq_ok_iff.mp done with ⟨_, _, rfl⟩
      rfl
  | burnClaimed =>
      rw [RollupV1.eq_of_burnClaimed done]
      rfl

/-- Removing a key that is listed once leaves the others. -/
theorem perm_removeKey {keys : List Element} {key : Element} (mem : key ∈ keys) :
    (key :: removeKey keys key).Perm keys := by
  have foundIs := List.isSome_idxOf?.mpr mem
  rcases Option.isSome_iff_exists.mp foundIs with ⟨index, indexEq⟩
  rcases List.idxOf?_eq_some_iff.mp indexEq with ⟨indexLt, keyEq, _⟩
  have lastEq := List.getLast?_eq_some_getLast (List.ne_nil_of_mem mem)
  rw [removeKey, indexEq, lastEq]
  exact perm_dropLast_set (List.getElem?_eq_some_iff.mpr ⟨indexLt, keyEq⟩) lastEq

theorem Lists.addZkVerifier (lists : registry.Lists) {env : Env} {next : RollupV1 W}
    {key : Element} {verifierAddress : Address} {messagesLength : BitVec 32}
    (called : registry.contract.addZkVerifier externals env key verifierAddress messagesLength =
      .ok next) :
    Lists ⟨next, registry.keysAfter (.addZkVerifier key verifierAddress messagesLength)⟩ := by
  rcases bind_eq_ok_iff.mp called with ⟨_, _, called⟩
  rcases bind_eq_ok_iff.mp called with ⟨_, _, called⟩
  rcases bind_eq_ok_iff.mp called with ⟨_, _, result⟩
  cases pure_eq_ok_iff.mp result
  have enabledIff : ∀ other, (Function.update registry.contract.zkVerifiers key
      ⟨verifierAddress, messagesLength.toNat, true⟩ other).enabled = true ↔
        other = key ∨ (registry.contract.zkVerifiers other).enabled = true := by
    intro other
    rcases eq_or_ne other key with rfl | differ
    · simp
    · rw [Function.update_of_ne differ, or_iff_right differ]
  by_cases enabled : (registry.contract.zkVerifiers key).enabled = true
  · have listed := (lists.mem_iff key).mpr enabled
    constructor
    · rw [keysAfter, if_pos enabled]
      exact lists.nodup
    · intro other
      rw [keysAfter, if_pos enabled]
      apply Iff.trans _ (enabledIff other).symm
      rw [← lists.mem_iff]
      exact ⟨.inr, fun either => either.elim (fun same => same ▸ listed) id⟩
  · have unlisted : key ∉ registry.zkVerifierKeys := fun mem => enabled ((lists.mem_iff key).mp mem)
    constructor
    · rw [keysAfter, if_neg enabled]
      exact List.nodup_append_comm.mp (List.nodup_cons.mpr ⟨unlisted, lists.nodup⟩)
    · intro other
      rw [keysAfter, if_neg enabled, List.mem_append, List.mem_singleton, lists.mem_iff, or_comm]
      exact (enabledIff other).symm

theorem Lists.removeZkVerifier (lists : registry.Lists) {env : Env} {next : RollupV1 W}
    {key : Element} (called : registry.contract.removeZkVerifier env key = .ok next) :
    Lists ⟨next, registry.keysAfter (.removeZkVerifier key)⟩ := by
  rcases bind_eq_ok_iff.mp called with ⟨_, _, called⟩
  rcases bind_eq_ok_iff.mp called with ⟨_, required, result⟩
  cases pure_eq_ok_iff.mp result
  have perm := perm_removeKey ((lists.mem_iff key).mpr (require_eq_ok_iff.mp required))
  have removed := List.nodup_cons.mp (perm.nodup_iff.mpr lists.nodup)
  constructor
  · exact removed.2
  · intro other
    change other ∈ removeKey registry.zkVerifierKeys key ↔
      (Function.update registry.contract.zkVerifiers key {} other).enabled = true
    rcases eq_or_ne other key with rfl | differ
    · rw [Function.update_self]
      exact iff_of_false removed.1 Bool.false_ne_true
    · rw [Function.update_of_ne differ, ← lists.mem_iff, ← perm.mem_iff, List.mem_cons,
        or_iff_right differ]

theorem keysAfter_of_other {request : RollupV1.Call} (other : editsVerifiers request = false) :
    registry.keysAfter request = registry.zkVerifierKeys := by
  cases request <;> first | rfl | cases other

/-- Every step keeps the array in line with the verifiers. -/
theorem Lists.step (lists : registry.Lists) {action : RollupV1.Action W} {next : Registry W}
    (step : Step externals here registry action next) : next.Lists := by
  rcases registry with ⟨contract, keys⟩
  rcases next with ⟨nextContract, nextKeys⟩
  rcases step with ⟨taken, rfl⟩
  cases taken with
  | reverted => exact lists
  | elsewhere => exact ⟨lists.nodup, lists.mem_iff⟩
  | @accepted _ env request done =>
      cases edits : editsVerifiers request with
      | true =>
          cases request with
          | addZkVerifier => exact lists.addZkVerifier done
          | removeZkVerifier => exact lists.removeZkVerifier done
          | _ => cases edits
      | false =>
          rw [keysAfterAction, keysAfter_of_other edits]
          refine ⟨lists.nodup, fun key => ?_⟩
          rw [lists.mem_iff]
          exact (congrArg (fun verifiers => (verifiers key).enabled = true)
            (zkVerifiers_of_call edits done)).symm.to_iff

theorem lists_of_initializeV1 {world : W} {blockNumber : Element}
    {owner escrowManager tokenAddress verifierAddress prover : Address}
    {initialValidators : List Address} {verifierKeyHash : Element}
    (done : initializeV1 world blockNumber owner escrowManager tokenAddress verifierAddress prover
      initialValidators verifierKeyHash = .ok registry) : registry.Lists := by
  rcases bind_eq_ok_iff.mp done with ⟨contract, deployed, result⟩
  cases pure_eq_ok_iff.mp result
  rcases bind_eq_ok_iff.mp deployed with ⟨verifying, initialized, result⟩
  cases pure_eq_ok_iff.mp result
  rcases bind_eq_ok_iff.mp initialized with ⟨validators, _, result⟩
  cases pure_eq_ok_iff.mp result
  constructor
  · exact List.nodup_singleton _
  · intro key
    change key ∈ [verifierKeyHash] ↔
      (Function.update (fun _ => ({} : Verifier)) verifierKeyHash ⟨verifierAddress, 6 * 5, true⟩
        key).enabled = true
    rcases eq_or_ne key verifierKeyHash with rfl | differ
    · simp
    · rw [Function.update_of_ne differ, List.mem_singleton]
      exact iff_of_false differ Bool.false_ne_true

/-- After the deployment and any calls the array lists exactly the keys of the enabled
verifiers, each one once. -/
theorem keys_list_enabled {world : W} {blockNumber : Element}
    {owner escrowManager tokenAddress verifierAddress prover : Address}
    {initialValidators : List Address} {verifierKeyHash : Element} {start : Registry W}
    {actions : List (RollupV1.Action W)}
    (deployed : initializeV1 world blockNumber owner escrowManager tokenAddress verifierAddress
      prover initialValidators verifierKeyHash = .ok start)
    (run : Run (Step externals here) start actions registry) :
    registry.zkVerifierKeys.Nodup ∧
      ∀ key, key ∈ registry.zkVerifierKeys ↔
        (registry.contract.zkVerifiers key).enabled = true := by
  have lists : registry.Lists := by
    induction run with
    | nil => exact lists_of_initializeV1 deployed
    | snoc _ step ih => exact ih.step step
  exact ⟨lists.nodup, lists.mem_iff⟩

theorem run_of_calls {requests : List (Env × RollupV1.Call)} {next : Registry W}
    (done : registry.calls externals here requests = .ok next) :
    Run (Step externals here) registry
      (requests.map fun request => .accepted request.1 request.2) next := by
  rw [calls, Run.foldlM_eq_ok_iff] at done
  induction done with
  | nil => exact .nil
  | snoc _ taken ih =>
      rcases bind_eq_ok_iff.mp taken with ⟨contract, called, result⟩
      cases pure_eq_ok_iff.mp result
      rw [List.map_append]
      exact .snoc ih ⟨.accepted called, rfl⟩

/-- An owner that adds two verifiers, removes the first and the one of the deployment, and
adds the first again. -/
def readdition : List (Env × RollupV1.Call) :=
  [.addZkVerifier 1 7 30, .addZkVerifier 2 7 30, .removeZkVerifier 1, .removeZkVerifier 0,
    .addZkVerifier 1 7 30].map (Prod.mk ⟨5, 0, 0⟩)

theorem readdition_accepted :
    ∃ start, initializeV1 () 0 5 6 7 8 9 [1] 0 = .ok start ∧
      ∃ registry, start.calls agreeable 10 readdition = .ok registry ∧
        registry.zkVerifierKeys = [2, 1] :=
  ⟨_, rfl, _, rfl, rfl⟩

theorem readdition_listed :
    ∃ start registry actions, initializeV1 () 0 5 6 7 8 9 [1] 0 = .ok start ∧
      Run (Step agreeable 10) start actions registry ∧
      registry.zkVerifierKeys = [2, 1] ∧
      ∀ key, key ∈ registry.zkVerifierKeys ↔
        (registry.contract.zkVerifiers key).enabled = true := by
  rcases readdition_accepted with ⟨start, deployed, registry, done, keysEq⟩
  have run := run_of_calls done
  exact ⟨start, registry, _, deployed, run, keysEq, (keys_list_enabled deployed run).2⟩

end Registry

end Ciphera.Rollup
