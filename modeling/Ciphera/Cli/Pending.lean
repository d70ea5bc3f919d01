import Ciphera.Cli.Effects
import Ciphera.Lib.Run

/-!
# Pending addresses

The key of an address that a wallet has handed out is kept with the pending notes until
a payment to the address is imported or found on the chain.  Handing out an address drops
the other pending notes of its ticker, so that this holds as long as there are none.
-/

namespace Ciphera.Cli.Wallet

open Ciphera.Lib Ciphera.Zk
open Ciphera.Noir (Poseidon)

variable (poseidon : Poseidon)

/-- The key of an address is pending. -/
def Holds (address pk : Element) (wallet : Wallet) : Prop :=
  ∃ held ∈ wallet.pending.all, held.note.address = address ∧ held.secretKey = pk

/-- The import or the synchronisation moves a note with this address to the available ones. -/
def Delivers (address pk : Element) (before : Wallet) (label : Call × Option Utxo)
    (after : Wallet) : Prop :=
  ((∃ note, label.1 = .importNote note) ∨ ∃ txns, label.1 = .sync txns) ∧
    ∃ delivered added, after.avail.all = before.avail.all + added ∧ delivered ∈ added ∧
      delivered.note.address = address ∧ delivered.secretKey = pk

/-- An address is handed out only for a ticker without pending notes. -/
def Unoccupied (wallet : Wallet) : Call → Prop
  | .getAddress _ ticker _ _ => ∀ entry ∈ wallet.pending, entry.1 = ticker → entry.2 = []
  | _ => True

/-- A step that drops no pending note. -/
def KeepingStep (before : Wallet) (label : Call × Option Utxo) (after : Wallet) : Prop :=
  before.Step poseidon label after ∧ before.Unoccupied label.1

/-- In whichever order the tickers come, the import of a note succeeds. -/
def CanImport (wallet : Wallet) (note : Note) : Prop :=
  ∀ pending, pending.Perm wallet.pending →
    ∃ after, apply poseidon { wallet with pending } (.importNote note) = .ok (after, none)

variable {poseidon} {address pk : Element} {before after wallet : Wallet} {call : Call}
  {built : Option Utxo}

/-! ## One step -/

/-- The pending notes stay, or a note with the address becomes available. -/
theorem Effect.holds_or_delivers (effect : Effect poseidon before after call built)
    (unoccupied : before.Unoccupied call) (holds : before.Holds address pk) :
    after.Holds address pk ∨ Delivers address pk before (call, built) after := by
  rcases holds with ⟨held, member, addressEq, keyEq⟩
  cases effect with
  | spendTo selects =>
      rcases selects.exchanged with ⟨middle, pulls, pushes⟩
      exact .inl ⟨held, by rwa [pushes.pending, pulls.pending], addressEq, keyEq⟩
  | receive _ pushes => exact .inl ⟨held, by rwa [pushes.pending], addressEq, keyEq⟩
  | mint _ pushes => exact .inl ⟨held, by rwa [pushes.pending], addressEq, keyEq⟩
  | burn pulls => exact .inl ⟨held, by rwa [pulls.pending], addressEq, keyEq⟩
  | addToAvail pushes => exact .inl ⟨held, by rwa [pushes.pending], addressEq, keyEq⟩
  | @importNote note pendingNote imports =>
      rw [← imports.pending, Multiset.mem_add, Multiset.mem_singleton] at member
      rcases member with kept | rfl
      · exact .inl ⟨held, kept, addressEq, keyEq⟩
      · have noteAddress : note.address = address := imports.address.symm.trans addressEq
        exact .inr ⟨.inl ⟨note, rfl⟩, ⟨note, held.secretKey⟩, _, imports.avail,
          Multiset.mem_singleton_self _, noteAddress, keyEq⟩
  | @getAddress amount ticker pk psi handedOut _ handsOut =>
      have exchanged := Bags.all_put ticker [handedOut] before.pending
      rw [Bags.get_eq_nil unoccupied, Multiset.coe_nil, add_zero] at exchanged
      refine .inl ⟨held, ?_, addressEq, keyEq⟩
      rw [handsOut.pending, exchanged]
      exact Multiset.mem_add.mpr (.inl member)
  | @sync txns claims =>
      rw [← claims.pending, Multiset.mem_add] at member
      rcases member with kept | claimed
      · exact .inl ⟨held, kept, addressEq, keyEq⟩
      · exact .inr ⟨.inr ⟨txns, rfl⟩, held, _, claims.avail, claimed, addressEq, keyEq⟩

theorem KeepingStep.holds_or_delivers {label : Call × Option Utxo}
    (holds : before.Holds address pk) (step : before.KeepingStep poseidon label after) :
    after.Holds address pk ∨ Delivers address pk before label after := by
  rcases step with ⟨⟨pending, perm, applied⟩, unoccupied⟩
  have shuffledHolds : { before with pending }.Holds address pk := by
    rwa [Holds, Bags.all_of_perm perm]
  have shuffledUnoccupied : { before with pending }.Unoccupied label.1 := by
    cases called : label.1 with
    | getAddress amount ticker pk psi =>
        rw [called] at unoccupied
        exact fun entry member => unoccupied entry (perm.mem_iff.mp member)
    | _ => trivial
  exact (effect_of_apply applied).holds_or_delivers shuffledUnoccupied shuffledHolds

/-! ## One bag for each ticker -/

theorem Effect.nodup_tickers (effect : Effect poseidon before after call built)
    (nodup : (before.pending.map Prod.fst).Nodup) : (after.pending.map Prod.fst).Nodup := by
  cases effect with
  | spendTo selects =>
      rcases selects.exchanged with ⟨middle, pulls, pushes⟩
      rwa [pushes.pending, pulls.pending]
  | receive _ pushes => rwa [pushes.pending]
  | mint _ pushes => rwa [pushes.pending]
  | burn pulls => rwa [pulls.pending]
  | addToAvail pushes => rwa [pushes.pending]
  | importNote imports => exact imports.tickers nodup
  | getAddress _ handsOut =>
      rw [handsOut.pending]
      exact Bags.nodup_put nodup
  | sync claims => rwa [claims.tickers]

theorem Step.nodup_tickers {label : Call × Option Utxo} (step : before.Step poseidon label after)
    (nodup : (before.pending.map Prod.fst).Nodup) : (after.pending.map Prod.fst).Nodup := by
  rcases step with ⟨pending, perm, applied⟩
  apply (effect_of_apply applied).nodup_tickers
  exact (perm.map Prod.fst).nodup_iff.mpr nodup

theorem nodup_tickers_of_run {labels : List (Call × Option Utxo)}
    (run : Run (Step poseidon) before labels after)
    (nodup : (before.pending.map Prod.fst).Nodup) : (after.pending.map Prod.fst).Nodup := by
  induction run with
  | nil => exact nodup
  | snoc _ taken ih => exact taken.nodup_tickers ih

/-! ## Payments that can be claimed -/

/-- The search finds a pending note with the address. -/
theorem exists_importFrom {note : Note} {ticker : String} {tickers : List String}
    {held : InputNote} (listed : ticker ∈ tickers) (member : held ∈ wallet.pending.get ticker)
    (addressEq : held.note.address = note.address) :
    ∃ after, wallet.importFrom note tickers = .ok after := by
  induction tickers with
  | nil => cases listed
  | cons first tickers ih =>
      unfold importFrom
      dsimp only
      cases found : (wallet.pending.get first).find? fun other =>
          other.note.address = note.address with
      | some pendingNote => exact ⟨_, rfl⟩
      | none =>
          rcases List.mem_cons.mp listed with rfl | later
          · have differs := List.find?_eq_none.mp found held member
            exact absurd (decide_eq_true addressEq) differs
          · exact ih later

theorem canImport_of_holds {note : Note} (nodup : (wallet.pending.map Prod.fst).Nodup)
    (holds : wallet.Holds note.address pk) : wallet.CanImport poseidon note := by
  intro pending perm
  rcases holds with ⟨held, member, addressEq, _⟩
  rw [← Bags.all_of_perm perm] at member
  rcases Bags.mem_all.mp member with ⟨entry, listed, inBag⟩
  have found := Bags.get_of_mem ((perm.map Prod.fst).nodup_iff.mpr nodup) listed
  have imports : ∃ after, { wallet with pending }.importNote note = .ok after :=
    exists_importFrom (List.mem_map_of_mem listed) (found ▸ inBag) addressEq
  rcases imports with ⟨after, imported⟩
  exact ⟨after, bind_eq_ok_iff.mpr ⟨after, imported, rfl⟩⟩

/-! ## Runs -/

theorem KeepingStep.run {labels : List (Call × Option Utxo)}
    (run : Run (KeepingStep poseidon) before labels after) :
    Run (Step poseidon) before labels after := by
  induction run with
  | nil => exact .nil
  | snoc _ taken ih => exact .snoc ih taken.1

theorem holds_of_getAddress {psi : Element} {amount : BitVec 64} {ticker : String}
    {handedOut : CipheraAddress}
    (done : wallet.getAddress poseidon pk psi amount ticker = .ok (after, handedOut)) :
    after.Holds handedOut.publicKey pk := by
  rcases bind_eq_ok_iff.mp done with ⟨data, _, done⟩
  rcases bind_eq_ok_iff.mp done with ⟨encoded, converted, done⟩
  rcases bind_eq_ok_iff.mp converted with ⟨currency, _, encodes⟩
  cases pure_eq_ok_iff.mp done
  cases pure_eq_ok_iff.mp encodes
  apply Exists.intro
  constructor
  · apply Multiset.mem_of_le (Bags.get_le_all _ ticker)
    rw [Bags.get_put]
    exact List.mem_singleton_self _
  · exact ⟨rfl, rfl⟩

/-- An address that a wallet has handed out stays pending with its key until the import or
the synchronisation delivers a note with it, and until then a payment to it can be
imported, as long as addresses are handed out for unoccupied tickers. -/
theorem address_pending_until_delivered {name : Option String}
    {earlier later : List (Call × Option Utxo)} {pending : Bags String InputNote}
    {psi : Element} {amount : BitVec 64} {ticker : String} {handedOut : CipheraAddress}
    (reached : Run (Step poseidon) (Wallet.new name) earlier before)
    (perm : pending.Perm before.pending)
    (done : { before with pending }.getAddress poseidon pk psi amount ticker =
      .ok (wallet, handedOut))
    (run : Run (KeepingStep poseidon) wallet later after) :
    (after.Holds handedOut.publicKey pk ∧
        ∀ note : Note, note.address = handedOut.publicKey → after.CanImport poseidon note) ∨
      ∃ first label second middle next, later = first ++ label :: second ∧
        Run (KeepingStep poseidon) wallet first middle ∧
        middle.KeepingStep poseidon label next ∧
        Delivers handedOut.publicKey pk middle label next ∧
        Run (KeepingStep poseidon) next second after := by
  have handsOut : before.Step poseidon (.getAddress amount ticker pk psi, none) wallet :=
    ⟨pending, perm, bind_eq_ok_iff.mpr ⟨_, done, rfl⟩⟩
  have nodup : (after.pending.map Prod.fst).Nodup :=
    nodup_tickers_of_run ((Run.snoc reached handsOut).trans (KeepingStep.run run)) .nil
  rcases run.holds_until (holds_of_getAddress done) (fun _ _ _ holds step =>
    step.holds_or_delivers holds) with holds | delivered
  · exact .inl ⟨holds, fun note same => canImport_of_holds nodup (same ▸ holds)⟩
  · exact .inr delivered

/-- The pending note of an address. -/
def addressNote (amount : BitVec 64) (pk psi : Element) : InputNote where
  note :=
    { kind := 2
      contract := citreaWcbtcNoteKind
      address := hashMerge List.sum [pk, Element.ZERO]
      psi
      value := amount.setWidth 256 }
  secretKey := pk

/-- A wallet that has handed out one address. -/
def waiting (amount : BitVec 64) (pk psi : Element) : Wallet where
  pending := [("WCBTC", [addressNote amount pk psi])]
  name := none
  balance := 0

/-- The address that a wallet hands out. -/
def handedOutAddress (amount : BitVec 64) (pk psi : Element) : CipheraAddress where
  version := 0
  currency := 1
  publicKey := hashMerge List.sum [pk, Element.ZERO]
  psi := some psi
  value := amount.setWidth 256

/-- The same wallet with an address for another ticker. -/
def waitingForBoth : Wallet :=
  let usdcNote := { (addressNote 20 2 6).note with contract := citreaUsdcNoteKind }
  { waiting 10 1 5 with
    pending := [("WCBTC", [addressNote 10 1 5]), ("USDC", [⟨usdcNote, 2⟩])] }

theorem address_pending_beside_other :
    Run (KeepingStep List.sum) (waiting 10 1 5) [(.getAddress 20 "USDC" 2 6, none)]
        waitingForBoth ∧
      waitingForBoth.Holds (handedOutAddress 10 1 5).publicKey 1 := by
  have unoccupied : (waiting 10 1 5).Unoccupied (.getAddress 20 "USDC" 2 6) := by
    intro entry member same
    obtain rfl := List.mem_singleton.mp member
    exact absurd same (by decide)
  have run : Run (KeepingStep List.sum) (waiting 10 1 5) [(.getAddress 20 "USDC" 2 6, none)]
      waitingForBoth := by
    apply Run.snoc (Run.nil : Run _ _ [] _)
    exact ⟨⟨_, .refl _, rfl⟩, unoccupied⟩
  have reached : Run (Step List.sum) (Wallet.new none) [] (Wallet.new none) := .nil
  have handsOut : (Wallet.new none).getAddress List.sum 1 5 10 "WCBTC" =
      .ok (waiting 10 1 5, handedOutAddress 10 1 5) := rfl
  refine ⟨run, ?_⟩
  rcases address_pending_until_delivered reached (.refl _) handsOut run with
    pending | ⟨first, label, second, middle, next, labelsEq, _, _, delivers, _⟩
  · exact pending.1
  · have member : label ∈ [((.getAddress 20 "USDC" 2 6, none) : Call × Option Utxo)] := by
      rw [labelsEq]
      exact List.mem_append_right _ List.mem_cons_self
    obtain rfl := List.mem_singleton.mp member
    rcases delivers.1 with ⟨note, imported⟩ | ⟨txns, synced⟩
    · cases imported
    · cases synced

/-- The second address for a ticker drops the key of the first. -/
theorem first_address_lost :
    (Wallet.new none).getAddress List.sum 1 5 10 "WCBTC" =
        .ok (waiting 10 1 5, handedOutAddress 10 1 5) ∧
      (waiting 10 1 5).Step List.sum (.getAddress 20 "WCBTC" 2 6, none) (waiting 20 2 6) ∧
      ¬(waiting 20 2 6).Holds (handedOutAddress 10 1 5).publicKey 1 ∧
      ¬(waiting 20 2 6).CanImport List.sum (addressNote 10 1 5).note := by
  refine ⟨rfl, ⟨_, .refl _, rfl⟩, ?_, ?_⟩
  · rintro ⟨held, member, addressEq, keyEq⟩
    obtain rfl : held = addressNote 20 2 6 := List.mem_singleton.mp member
    exact absurd keyEq (by decide)
  · intro imports
    rcases imports _ (.refl _) with ⟨after, imported⟩
    cases imported

end Ciphera.Cli.Wallet
