import Ciphera.MinimalPoseidon.CoreLogic

/-!
# The Poseidon sponge absorbs in blocks

The row of a sponge represents the words it buffers: they stand in front, and empty entries
follow.  Absorbing a value is feeding the buffer, and it never meets an empty entry, since the
row is absorbed only when it is full.  The padding sees to it that the last row is full too.
-/

namespace Ciphera.MinimalPoseidon

open Ciphera.Lib

section Rows

variable {F : Type} {width rate : Nat}

/-- The row that holds the pending words. -/
def row (rate : Nat) (pending : List F) : List (Option F) :=
  pending.map some ++ List.replicate (rate - pending.length) none

/-- A buffer of pending words, as the sponge of the source keeps it. -/
def represent (rate : Nat) (buffer : Lib.Sponge.Buffer F (Vector F width)) : Sponge F width where
  mode := row rate buffer.pending
  state := buffer.state
  layout := 0

theorem row_of_full {pending : List F} (full : pending.length = rate) :
    row rate pending = pending.map some := by
  rw [row, full, Nat.sub_self, List.replicate_zero, List.append_nil]

theorem storeFirst_map_some (value : F) (stored : List F) (entries : List (Option F)) :
    storeFirst value (stored.map some ++ entries) =
      (storeFirst value entries).map (stored.map some ++ ·) := by
  induction stored with
  | nil =>
      rw [List.map_nil, List.nil_append]
      exact Option.map_id'.symm
  | cons first stored ih =>
      rw [List.map_cons, List.cons_append, storeFirst, ih, Option.map_map]
      rfl

theorem storeFirst_row {value : F} {pending : List F} (room : pending.length < rate) :
    storeFirst value (row rate pending) = some (row rate (pending ++ [value])) := by
  obtain ⟨empty, rateEq⟩ := Nat.exists_eq_add_of_lt room
  have left : rate - pending.length = empty + 1 := by omega
  have leftAfter : rate - (pending ++ [value]).length = empty := by
    rw [List.length_append, List.length_singleton]
    omega
  rw [row, storeFirst_map_some, left, List.replicate_succ, storeFirst, Option.map_some, row,
    leftAfter, List.map_append, List.append_assoc]
  rfl

theorem storeFirst_full {value : F} {pending : List F} (full : pending.length = rate) :
    storeFirst value (row rate pending) = none := by
  rw [row_of_full full, ← List.append_nil (pending.map some), storeFirst_map_some]
  rfl

@[simp]
theorem mapM_id_some (values : List F) : (values.map some).mapM id = some values := by
  induction values with
  | nil => rfl
  | cons value values ih =>
      rw [List.map_cons, List.mapM_cons, ih]
      rfl

end Rows

section Padding

variable {F : Type} [Zero F] {rate : Nat}

/-- A padded message is cut into full blocks. -/
theorem padded_dvd (rate_pos : 0 < rate) (message : List F) :
    rate ∣ (message ++ padding rate message.length).length := by
  have enough : message.length ≤ (message.length + rate - 1) / rate * rate := by
    have split := Nat.div_add_mod (message.length + rate - 1) rate
    have small := Nat.mod_lt (message.length + rate - 1) rate_pos
    rw [Nat.mul_comm] at split
    omega
  rw [List.length_append, padding, List.length_replicate, Nat.add_sub_cancel' enough]
  exact Nat.dvd_mul_left rate _

end Padding

section Values

variable {F : Type} [Add F] {width : Nat}

/-- Values past the last word are not zipped. -/
@[simp]
theorem addValues_take (state : Vector F width) (values : List F) :
    addValues 0 state (values.take width) = addValues 0 state values := by
  apply Vector.ext
  intro index inside
  rw [addValues, addValues, Vector.getElem_ofFn, Vector.getElem_ofFn]
  simp only [Nat.zero_le, if_true, Nat.sub_zero, List.getElem?_take_of_lt inside]

@[simp]
theorem addEntries_map_some (state : Vector F width) (values : List F) :
    addEntries 0 state (values.map some) = .ok (addValues 0 state values) := by
  rw [addEntries, Nat.sub_zero, ← List.map_take, mapM_id_some]
  exact congrArg Except.ok (addValues_take state values)

/-- An empty entry in front is not expected. -/
@[simp]
theorem addEntries_none [NeZero width] (state : Vector F width) (entries : List (Option F)) :
    addEntries 0 state (none :: entries) =
      .error "poseidon_sponge is called with a padded input" := by
  obtain ⟨words, widthEq⟩ := Nat.exists_eq_succ_of_ne_zero (NeZero.ne width)
  have zipped : (none :: entries).take (width - 0) = none :: entries.take words := by
    rw [Nat.sub_zero, widthEq, List.take_succ_cons]
  rw [addEntries, zipped]
  rfl

/-- The layout of a message of constant length starts at the first word. -/
@[simp]
theorem absorbInput_zero (rate : Nat) (state : Vector F width) (entries : List (Option F)) :
    absorbInput rate state (some (entries, 0)) = addEntries 0 state entries := by
  have checked : check (0 ≤ width - rate) "assertion failed: layout_offset <= T - RATE" =
      .ok PUnit.unit := check_eq_ok_iff.mpr (Nat.zero_le _)
  rw [absorbInput, checked]
  rfl

end Values

variable {F : Type} [Zero F] [Add F] [Mul F] {width : Nat} {spec : Spec F width} {rate : Nat}

/-- The sponge of a specification. -/
def spongeOf (spec : Spec F width) (rate : Nat) (rate_pos : 0 < rate) :
    Lib.Sponge F (Vector F width) where
  rate := rate
  rate_pos := rate_pos
  inject := addValues 0
  permute := permute spec

/-- The state a capacity element starts. -/
def initialState [NeZero width] (rate : Nat) (capacity : F) : Vector F width :=
  (Vector.replicate width 0).set ((rate + 0) % width) capacity
    (Nat.mod_lt _ (Nat.pos_of_neZero width))

/-- A full row is absorbed as a block. -/
theorem poseidonSpongeInternal_full (rate_pos : 0 < rate) {state : Vector F width}
    {block : List F} (full : block.length = rate) :
    poseidonSpongeInternal spec rate state (some (row rate block, 0)) =
      .ok ((spongeOf spec rate rate_pos).absorbBlock state block,
        (List.range rate).map fun index =>
          ((spongeOf spec rate rate_pos).absorbBlock state block)[index]?) := by
  rw [poseidonSpongeInternal, absorbInput_zero, row_of_full full, addEntries_map_some]
  rfl

theorem absorb_represent (rate_pos : 0 < rate)
    {buffer : Lib.Sponge.Buffer F (Vector F width)} (fits : buffer.pending.length ≤ rate)
    (value : F) :
    (represent rate buffer).absorb spec rate value =
      .ok (represent rate ((spongeOf spec rate rate_pos).feed buffer value)) := by
  rw [Sponge.absorb]
  rcases Nat.lt_or_eq_of_le fits with room | full
  · rw [represent, storeFirst_row room, Lib.Sponge.feed_of_lt room]
    rfl
  · rw [represent, storeFirst_full full, poseidonSpongeInternal_full rate_pos full,
      Lib.Sponge.feed_of_full full]
    rfl

theorem foldlM_absorb_represent (rate_pos : 0 < rate) {words : List F}
    {buffer : Lib.Sponge.Buffer F (Vector F width)} (fits : buffer.pending.length ≤ rate) :
    words.foldlM (Sponge.absorb spec rate) (represent rate buffer) =
      .ok (represent rate (words.foldl (spongeOf spec rate rate_pos).feed buffer)) := by
  induction words generalizing buffer with
  | nil => rfl
  | cons word words ih =>
      rw [List.foldlM_cons, absorb_represent rate_pos fits]
      exact ih Lib.Sponge.feed_length_le

/-- The first word of the state is what a squeezed sponge gives. -/
theorem squeeze_range [NeZero width] (spec : Spec F width) (rate_pos : 0 < rate) (fuel : Nat)
    (state : Vector F width) :
    ∃ left, Sponge.squeeze spec rate (fuel + 1)
      { mode := (List.range rate).map fun index => state[index]?, state := state, layout := 0 } =
        .ok (state.get 0, left) := by
  obtain ⟨more, rateEq⟩ := Nat.exists_eq_add_of_lt rate_pos
  have first : state[0]? = some (state.get 0) :=
    Vector.getElem?_eq_getElem (Nat.pos_of_neZero width)
  rw [Nat.zero_add] at rateEq
  rw [Sponge.squeeze, rateEq, List.range_succ_eq_map, List.map_cons, first]
  exact ⟨_, rfl⟩

variable [NatCast F]

/-- The state of a message after its last block. -/
def absorbed [NeZero width] (spec : Spec F width) (rate : Nat) (rate_pos : 0 < rate)
    (message : List F) : Vector F width :=
  (spongeOf spec rate rate_pos).absorbBlocks
    (initialState rate (initialCapacityElement message.length))
    (message ++ padding rate message.length)

/-- A message is hashed by absorbing it and its padding in blocks, and the loop that squeezes
ends in its first round. -/
theorem hash_of_ne_nil [NeZero width] (rate_pos : 0 < rate) (fuel : Nat) {message : List F}
    (someWords : message ≠ []) :
    hash spec rate (fuel + 1) message = .ok ((absorbed spec rate rate_pos message).get 0) := by
  let padded := message ++ padding rate message.length
  let start : Lib.Sponge.Buffer F (Vector F width) :=
    { state := initialState rate (initialCapacityElement message.length), pending := [] }
  let last := padded.foldl (spongeOf spec rate rate_pos).feed start
  have paddedSome : padded ≠ [] := List.append_ne_nil_of_left_ne_nil someWords _
  have full : last.pending.length = rate :=
    Lib.Sponge.foldl_feed_full paddedSome (padded_dvd rate_pos message)
  have startFits : start.pending.length ≤ (spongeOf spec rate rate_pos).rate := Nat.zero_le rate
  have absorbs : (spongeOf spec rate rate_pos).absorbBlock last.state last.pending =
      absorbed spec rate rate_pos message :=
    Lib.Sponge.finish_foldl_feed startFits
  have fed : padded.foldlM (Sponge.absorb spec rate) (represent rate start) =
      .ok (represent rate last) :=
    foldlM_absorb_represent rate_pos (Nat.zero_le rate)
  obtain ⟨left, squeezed⟩ :=
    squeeze_range spec rate_pos fuel (absorbed spec rate rate_pos message)
  rw [hash]
  change (padded.foldlM _ (represent rate start) >>= _) = _
  rw [fed]
  change ((represent rate last).finishAbsorbing spec rate >>= _) = _
  rw [Sponge.finishAbsorbing, represent, poseidonSpongeInternal_full rate_pos full,
    absorbs]
  change (Sponge.squeeze spec rate (fuel + 1) _ >>= _) = _
  rw [squeezed]
  rfl

/-- An empty message leaves the row empty, which panics. -/
@[simp]
theorem hash_nil [NeZero width] (rate_pos : 0 < rate) (fuel : Nat) :
    hash spec rate fuel [] = .error "poseidon_sponge is called with a padded input" := by
  have noPadding : padding (F := F) rate 0 = [] := by
    have blocks : (0 + rate - 1) / rate = 0 := Nat.div_eq_of_lt (by omega)
    rw [padding, blocks, Nat.zero_mul]
    rfl
  obtain ⟨entries, rateEq⟩ := Nat.exists_eq_succ_of_ne_zero (Nat.ne_of_gt rate_pos)
  rw [hash, List.length_nil, noPadding]
  change ((Sponge.new rate (initialCapacityElement 0) 0).finishAbsorbing spec rate >>= _) = _
  rw [Sponge.finishAbsorbing, Sponge.new, poseidonSpongeInternal, absorbInput_zero, rateEq,
    List.replicate_succ, addEntries_none]
  rfl

end Ciphera.MinimalPoseidon
