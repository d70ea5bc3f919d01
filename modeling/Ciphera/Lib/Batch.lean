import Ciphera.Lib.Merkle

/-!
# Batched writes into a Merkle tree

A batch is a list of writes, each with a key and an effect on the leaf it
falls on.  In a tree of a given depth a write falls on the slot given by the
low bits of its key, so a batch sorted by slot divides at every level into the
writes of the left and of the right half.  The root after a batch is computed
level by level from the two parts, without touching the rest of the tree.
-/

namespace Ciphera.Lib.Merkle

universe u v

/-! ## Dividing a list at the first element with a property -/

section Divide

variable {ω : Type v} {property : ω → Bool}

theorem take_findIdx_eq_filter {batch : List ω}
    (monotone : batch.Pairwise fun first second => property first → property second) :
    batch.take (batch.findIdx property) = batch.filter fun write => !property write := by
  induction batch with
  | nil => rfl
  | cons write batch ih =>
      rw [List.pairwise_cons] at monotone
      cases holds : property write with
      | true =>
          have all : ∀ other ∈ batch, property other = true :=
            fun other mem => monotone.1 other mem holds
          simpa [List.findIdx_cons, holds] using all
      | false => simp [List.findIdx_cons, holds, ih monotone.2]

theorem drop_findIdx_eq_filter {batch : List ω}
    (monotone : batch.Pairwise fun first second => property first → property second) :
    batch.drop (batch.findIdx property) = batch.filter property := by
  induction batch with
  | nil => rfl
  | cons write batch ih =>
      rw [List.pairwise_cons] at monotone
      cases holds : property write with
      | true =>
          have all : ∀ other ∈ batch, property other = true :=
            fun other mem => monotone.1 other mem holds
          simp [List.findIdx_cons, holds, List.filter_eq_self.mpr all]
      | false => simp [List.findIdx_cons, holds, ih monotone.2]

/-- A pairwise property of a list splits over a division of the list when it
holds between the two parts. -/
theorem pairwise_iff_filter {relation : ω → ω → Prop} (symmetric : ∀ {first second},
      relation first second → relation second first)
    (across : ∀ first second, property first = false → property second = true →
      relation first second) (batch : List ω) :
    batch.Pairwise relation ↔
      (batch.filter fun write => !property write).Pairwise relation ∧
        (batch.filter property).Pairwise relation := by
  induction batch with
  | nil => simp
  | cons write batch ih =>
      cases holds : property write with
      | true =>
          simp only [List.pairwise_cons, ih, List.filter_cons, holds, Bool.not_true,
            Bool.false_eq_true, if_false, if_true, List.mem_filter]
          constructor
          · rintro ⟨related, left, right⟩
            exact ⟨left, fun other mem => related other mem.1, right⟩
          · rintro ⟨left, related, right⟩
            refine ⟨fun other mem => ?_, left, right⟩
            cases otherHolds : property other with
            | true => exact related other ⟨mem, otherHolds⟩
            | false => exact symmetric (across other write otherHolds holds)
      | false =>
          simp only [List.pairwise_cons, ih, List.filter_cons, holds, Bool.not_false,
            Bool.false_eq_true, if_false, if_true, List.mem_filter]
          constructor
          · rintro ⟨related, left, right⟩
            exact ⟨⟨fun other mem => related other mem.1, left⟩, right⟩
          · rintro ⟨⟨related, left⟩, right⟩
            refine ⟨fun other mem => ?_, left, right⟩
            cases otherHolds : property other with
            | true => exact across write other holds otherHolds
            | false => exact related other ⟨mem, by simp [otherHolds]⟩

end Divide

/-! ## Batches -/

variable {α : Type u} {ω : Type v} (key : ω → Nat) (effect : ω → α → α)

/-- The leaves after a batch; of several writes to one slot the first counts. -/
def writeAll (depth : Nat) (batch : List ω) (leaves : Nat → α) (slot : Nat) : α :=
  match batch.find? fun write => key write % 2 ^ depth = slot with
  | none => leaves slot
  | some write => effect write (leaves slot)

/-- No two writes fall on one slot. -/
def DistinctSlots (depth : Nat) (batch : List ω) : Prop :=
  batch.Pairwise fun first second => key first % 2 ^ depth ≠ key second % 2 ^ depth

/-- The batch is in the order of its slots. -/
def SortedSlots (depth : Nat) (batch : List ω) : Prop :=
  batch.Pairwise fun first second => key first % 2 ^ depth ≤ key second % 2 ^ depth

/-- The writes of the left half of a tree with `depth` levels below its root's
children. -/
def leftWrites (depth : Nat) (batch : List ω) : List ω :=
  batch.filter fun write => !(key write).testBit depth

/-- The writes for the right half. -/
def rightWrites (depth : Nat) (batch : List ω) : List ω :=
  batch.filter fun write => (key write).testBit depth

variable {key} {effect}

@[simp]
theorem mem_leftWrites {depth : Nat} {batch : List ω} {write : ω} :
    write ∈ leftWrites key depth batch ↔ write ∈ batch ∧ (key write).testBit depth = false := by
  simp [leftWrites]

@[simp]
theorem mem_rightWrites {depth : Nat} {batch : List ω} {write : ω} :
    write ∈ rightWrites key depth batch ↔ write ∈ batch ∧ (key write).testBit depth = true := by
  simp [rightWrites]

/-- In slot order the writes of the left half come first. -/
theorem SortedSlots.monotone {depth : Nat} {batch : List ω}
    (sorted : SortedSlots key (depth + 1) batch) :
    batch.Pairwise fun first second =>
      (key first).testBit depth = true → (key second).testBit depth = true := by
  refine List.Pairwise.imp (fun {first second} le bit => ?_) sorted
  by_contra notBit
  rw [Bool.not_eq_true] at notBit
  rw [key_mod_of_right bit, key_mod_of_left notBit] at le
  have slotLt := Nat.mod_lt (key second) (Nat.two_pow_pos depth)
  omega

theorem SortedSlots.left {depth : Nat} {batch : List ω}
    (sorted : SortedSlots key (depth + 1) batch) :
    SortedSlots key depth (leftWrites key depth batch) := by
  refine List.Pairwise.imp_of_mem (fun {first second} firstMem secondMem le => ?_)
    (List.Pairwise.filter _ sorted)
  rwa [key_mod_of_left (mem_leftWrites.mp firstMem).2,
    key_mod_of_left (mem_leftWrites.mp secondMem).2] at le

theorem SortedSlots.right {depth : Nat} {batch : List ω}
    (sorted : SortedSlots key (depth + 1) batch) :
    SortedSlots key depth (rightWrites key depth batch) := by
  refine List.Pairwise.imp_of_mem (fun {first second} firstMem secondMem le => ?_)
    (List.Pairwise.filter _ sorted)
  rw [key_mod_of_right (mem_rightWrites.mp firstMem).2,
    key_mod_of_right (mem_rightWrites.mp secondMem).2] at le
  omega

/-- Slots are distinct exactly when they are in each half. -/
theorem distinctSlots_succ_iff (depth : Nat) (batch : List ω) :
    DistinctSlots key (depth + 1) batch ↔
      DistinctSlots key depth (leftWrites key depth batch) ∧
        DistinctSlots key depth (rightWrites key depth batch) := by
  have across : ∀ first second : ω, (key first).testBit depth = false →
      (key second).testBit depth = true →
      key first % 2 ^ (depth + 1) ≠ key second % 2 ^ (depth + 1) := by
    intro first second firstBit secondBit
    rw [key_mod_of_left firstBit, key_mod_of_right secondBit]
    have slotLt := Nat.mod_lt (key first) (Nat.two_pow_pos depth)
    omega
  unfold DistinctSlots
  rw [pairwise_iff_filter (fun ne => ne.symm) across]
  apply and_congr
  · apply List.Pairwise.iff_of_mem
    intro first second firstMem secondMem
    rw [key_mod_of_left (mem_leftWrites.mp firstMem).2,
      key_mod_of_left (mem_leftWrites.mp secondMem).2]
  · apply List.Pairwise.iff_of_mem
    intro first second firstMem secondMem
    rw [key_mod_of_right (mem_rightWrites.mp firstMem).2,
      key_mod_of_right (mem_rightWrites.mp secondMem).2]
    omega

/-- At the leaves all writes fall on the only slot. -/
@[simp]
theorem distinctSlots_zero_iff (batch : List ω) :
    DistinctSlots key 0 batch ↔ batch.length ≤ 1 := by
  cases batch with
  | nil => simp [DistinctSlots]
  | cons first batch =>
      cases batch with
      | nil => simp [DistinctSlots]
      | cons second batch =>
          simp only [DistinctSlots, List.pairwise_cons, List.mem_cons, pow_zero, Nat.mod_one,
            List.length_cons]
          constructor
          · intro distinct
            exact absurd rfl (distinct.1 second (Or.inl rfl))
          · intro short
            omega

/-! ## Leaves and roots after a batch -/

@[simp]
theorem writeAll_nil (depth : Nat) (leaves : Nat → α) :
    writeAll key effect depth [] leaves = leaves :=
  rfl

theorem writeAll_congr {depth slot : Nat} (batch : List ω) {first second : Nat → α}
    (agree : first slot = second slot) :
    writeAll key effect depth batch first slot = writeAll key effect depth batch second slot := by
  simp only [writeAll, agree]

/-- Away from the slots of the batch nothing changes. -/
@[simp]
theorem writeAll_of_notMem {depth slot : Nat} {batch : List ω} (leaves : Nat → α)
    (absent : ∀ write ∈ batch, key write % 2 ^ depth ≠ slot) :
    writeAll key effect depth batch leaves slot = leaves slot := by
  have missing : batch.find? (fun write => key write % 2 ^ depth = slot) = none := by
    simpa using absent
  simp only [writeAll, missing]

/-- With distinct slots every write has its effect. -/
theorem writeAll_of_mem {depth : Nat} {batch : List ω} {write : ω} (leaves : Nat → α)
    (distinct : DistinctSlots key depth batch) (mem : write ∈ batch) :
    writeAll key effect depth batch leaves (key write % 2 ^ depth) =
      effect write (leaves (key write % 2 ^ depth)) := by
  have found : batch.find? (fun other => key other % 2 ^ depth = key write % 2 ^ depth) =
      some write := by
    induction batch with
    | nil => simp at mem
    | cons first batch ih =>
        have distinct := List.pairwise_cons.mp distinct
        rcases List.mem_cons.mp mem with rfl | mem
        · simp
        · simpa [distinct.1 write mem] using ih distinct.2 mem
  simp only [writeAll, found]

/-- With distinct slots the order of the writes does not matter. -/
theorem writeAll_perm {depth : Nat} {first second : List ω} (leaves : Nat → α)
    (perm : first.Perm second) (distinct : DistinctSlots key depth first) :
    writeAll key effect depth first leaves = writeAll key effect depth second leaves := by
  have distinctSecond : DistinctSlots key depth second :=
    (perm.pairwise_iff fun ne => ne.symm).mp distinct
  funext slot
  by_cases hit : ∃ write ∈ first, key write % 2 ^ depth = slot
  · obtain ⟨write, mem, rfl⟩ := hit
    rw [writeAll_of_mem leaves distinct mem, writeAll_of_mem leaves distinctSecond
      (perm.mem_iff.mp mem)]
  · push Not at hit
    rw [writeAll_of_notMem leaves hit, writeAll_of_notMem leaves fun write mem =>
      hit write (perm.mem_iff.mpr mem)]

theorem writeAll_singleton (depth : Nat) (write : ω) (leaves : Nat → α) :
    writeAll key effect depth [write] leaves =
      Function.update leaves (key write % 2 ^ depth)
        (effect write (leaves (key write % 2 ^ depth))) := by
  funext slot
  by_cases hit : key write % 2 ^ depth = slot
  · subst hit
    rw [writeAll_of_mem leaves (List.pairwise_singleton _ _) List.mem_cons_self,
      Function.update_self]
  · rw [writeAll_of_notMem leaves (by simpa using hit), Function.update_of_ne (Ne.symm hit)]

/-- One batch after the other. -/
theorem writeAll_append {depth : Nat} {first second : List ω} (leaves : Nat → α)
    (distinct : DistinctSlots key depth (first ++ second)) :
    writeAll key effect depth (first ++ second) leaves =
      writeAll key effect depth second (writeAll key effect depth first leaves) := by
  rcases List.pairwise_append.mp distinct with ⟨firstDistinct, secondDistinct, apart⟩
  funext slot
  by_cases inFirst : ∃ write ∈ first, key write % 2 ^ depth = slot
  · rcases inFirst with ⟨write, mem, rfl⟩
    rw [writeAll_of_mem leaves distinct (List.mem_append_left _ mem),
      writeAll_of_notMem _ fun other otherMem => (apart write mem other otherMem).symm,
      writeAll_of_mem leaves firstDistinct mem]
  · push Not at inFirst
    by_cases inSecond : ∃ write ∈ second, key write % 2 ^ depth = slot
    · rcases inSecond with ⟨write, mem, rfl⟩
      rw [writeAll_of_mem leaves distinct (List.mem_append_right _ mem),
        writeAll_of_mem _ secondDistinct mem, writeAll_of_notMem leaves inFirst]
    · push Not at inSecond
      rw [writeAll_of_notMem _ inSecond, writeAll_of_notMem leaves inFirst, writeAll_of_notMem]
      intro write mem
      rcases List.mem_append.mp mem with first | second
      · exact inFirst write first
      · exact inSecond write second

/-- The left half after a batch. -/
theorem writeAll_left {depth slot : Nat} (batch : List ω) (leaves : Nat → α)
    (slotLt : slot < 2 ^ depth) :
    writeAll key effect (depth + 1) batch leaves slot =
      writeAll key effect depth (leftWrites key depth batch) leaves slot := by
  have found : batch.find? (fun write => key write % 2 ^ (depth + 1) = slot) =
      (leftWrites key depth batch).find? (fun write => key write % 2 ^ depth = slot) := by
    rw [leftWrites, List.find?_filter]
    congr 1
    funext write
    cases bit : (key write).testBit depth with
    | false => simp [key_mod_of_left bit]
    | true =>
        rw [key_mod_of_right bit]
        simp
        omega
  simp only [writeAll, found]

theorem writeAll_right {depth slot : Nat} (batch : List ω) (leaves : Nat → α) :
    rightLeaves depth (writeAll key effect (depth + 1) batch leaves) slot =
      writeAll key effect depth (rightWrites key depth batch) (rightLeaves depth leaves) slot := by
  have found : batch.find? (fun write => key write % 2 ^ (depth + 1) = 2 ^ depth + slot) =
      (rightWrites key depth batch).find? (fun write => key write % 2 ^ depth = slot) := by
    rw [rightWrites, List.find?_filter]
    congr 1
    funext write
    have writeLt := Nat.mod_lt (key write) (Nat.two_pow_pos depth)
    cases bit : (key write).testBit depth with
    | false =>
        rw [key_mod_of_left bit]
        simp
        omega
    | true => simp [key_mod_of_right bit]
  simp only [rightLeaves, writeAll, found]

/-- The root after a batch, from the batches of the two halves. -/
theorem root_writeAll_succ (hash : α → α → α) (depth : Nat) (batch : List ω)
    (leaves : Nat → α) :
    root hash (depth + 1) (writeAll key effect (depth + 1) batch leaves) =
      hash (root hash depth (writeAll key effect depth (leftWrites key depth batch) leaves))
        (root hash depth
          (writeAll key effect depth (rightWrites key depth batch) (rightLeaves depth leaves))) := by
  rw [root_succ]
  congr 1
  · exact root_congr hash fun slot slotLt => writeAll_left batch leaves slotLt
  · exact root_congr hash fun slot _ => writeAll_right batch leaves

end Ciphera.Lib.Merkle
