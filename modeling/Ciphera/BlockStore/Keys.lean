import Ciphera.BlockStore
import Ciphera.Keccak
import Ciphera.Lib.Check

/-!
# Keys of the database

The database orders its rows by the bytes of their keys.  A key starts with the byte of
its kind; heights follow in eight bytes, the most significant first, so that the rows of
a kind are next to each other and blocks are ordered by height.
-/

namespace Ciphera.BlockStore

open Ciphera.Lib

/-- Keys and their parts, as the store compares them. -/
abbrev Bytes := List (BitVec 8)

/-- Whether a transaction consumed an element or created it. -/
inductive ElementHistoryKind
  | input
  | output
  deriving DecidableEq, Repr

/-- The last byte of the key of an element's history. -/
def ElementHistoryKind.toByte : ElementHistoryKind → BitVec 8
  | input => 0
  | output => 1

/-- What the store keeps a value for. -/
inductive Key
  | block (height : Nat)
  | maxHeight
  | blockHashToHeight (blockHash : CryptoHash)
  | pendingBlock
  | txnByHash (txnHash : CryptoHash)
  | storeVersion
  | nonEmptyBlock (height : Nat)
  | lockedElement (lockedElement : BitVec 256)
  | elementHistory (element : Element) (kind : ElementHistoryKind)
  | mintHash (mintHash : Element)
  deriving DecidableEq, Repr

namespace Key

/-- The first byte of a key, by which keys of one kind stand together. -/
def kind : Key → BitVec 8
  | block _ => 0
  | maxHeight => 1
  | blockHashToHeight _ => 2
  | pendingBlock => 3
  | txnByHash _ => 4
  | storeVersion => 5
  | nonEmptyBlock _ => 6
  | lockedElement _ => 7
  | elementHistory _ _ => 8
  | mintHash _ => 9

/-- The bytes after the kind. -/
def body : Key → Bytes
  | block height | nonEmptyBlock height => beBytes 8 height
  | maxHeight | pendingBlock | storeVersion => []
  | blockHashToHeight hash | txnByHash hash | lockedElement hash | mintHash hash =>
      beBytes 32 hash.toNat
  | elementHistory element kind => beBytes 32 element.toNat ++ [kind.toByte]

/-- The bytes of a key: its kind, and behind it the fields of that kind. -/
def serialize (key : Key) : Bytes := key.kind :: key.body

/-- The least byte string behind the one of the key. -/
def serializeImmediateSuccessor (key : Key) : Bytes := key.serialize ++ [0]

end Key

/-- Why bytes are not the ones of a key. -/
inductive KeyError
  | invalidKey
  | wireMessage
  deriving DecidableEq, Repr

/-- The number in the first bytes of a slice. -/
def readBytes (count : Nat) (bytes : Bytes) : Except (Stop KeyError) Nat :=
  if count ≤ bytes.length then .ok (fromBeBytes (bytes.take count))
  else .error (.panic "range end index out of range for slice")

/-- Read the kind and the fields of that kind; what stands behind them is ignored. -/
def Key.deserialize : Bytes → Except (Stop KeyError) Key
  | [] => .error (.error .invalidKey)
  | kind :: bytes =>
      match kind.toNat with
      | 0 => block <$> readBytes 8 bytes
      | 1 => .ok maxHeight
      | 2 => (fun hash => blockHashToHeight (BitVec.ofNat 256 hash)) <$> readBytes 32 bytes
      | 3 => .ok pendingBlock
      | 4 => (fun hash => txnByHash (BitVec.ofNat 256 hash)) <$> readBytes 32 bytes
      | 5 => .ok storeVersion
      | 6 => nonEmptyBlock <$> readBytes 8 bytes
      | 7 => (fun element => lockedElement (BitVec.ofNat 256 element)) <$> readBytes 32 bytes
      | 8 => do
          let element ← readBytes 32 bytes
          match bytes[32]? with
          | none => .error (.panic "index out of bounds")
          | some byte =>
              match byte.toNat with
              | 0 => pure (elementHistory (BitVec.ofNat 256 element) .input)
              | 1 => pure (elementHistory (BitVec.ofNat 256 element) .output)
              | _ => .error (.panic "called `Option::unwrap()` on a `None` value")
      | 9 => (fun hash => mintHash (BitVec.ofNat 256 hash)) <$> readBytes 32 bytes
      | _ => .error (.error .invalidKey)

/-! ## Numbers as bytes -/

/-- Two numbers in two digits are compared by the first, and then by the second. -/
theorem add_mul_lt_iff {base first second firstLow secondLow : Nat} (firstLt : firstLow < base)
    (secondLt : secondLow < base) :
    firstLow + base * first < secondLow + base * second ↔
      first < second ∨ first = second ∧ firstLow < secondLow := by
  rcases Nat.lt_trichotomy first second with less | rfl | greater
  · have step := Nat.mul_le_mul_left base (Nat.succ_le_of_lt less)
    rw [Nat.mul_succ] at step
    exact iff_of_true (by omega) (.inl less)
  · simp
  · have step := Nat.mul_le_mul_left base (Nat.succ_le_of_lt greater)
    rw [Nat.mul_succ] at step
    exact iff_of_false (by omega) (by omega)

/-- Among byte strings of one length the order is that of the numbers. -/
@[simp]
theorem beBytes_lt_beBytes_iff {count first second : Nat} :
    beBytes count first < beBytes count second ↔
      first % 256 ^ count < second % 256 ^ count := by
  induction count with
  | zero => simp [beBytes, Nat.mod_one]
  | succ count ih =>
      have positive : 0 < 256 ^ count := Nat.pow_pos (by decide)
      rw [beBytes_succ, beBytes_succ, List.cons_lt_cons_iff, ih, BitVec.lt_def,
        ← BitVec.toNat_inj, BitVec.toNat_ofNat, BitVec.toNat_ofNat,
        @Nat.mod_pow_succ first 256 count, @Nat.mod_pow_succ second 256 count,
        add_mul_lt_iff (Nat.mod_lt _ positive) (Nat.mod_lt _ positive)]

@[simp]
theorem readBytes_beBytes {count number : Nat} (fits : number < 256 ^ count) :
    readBytes count (beBytes count number) = .ok number := by
  have lengthEq := length_beBytes count number
  rw [readBytes, if_pos (Nat.le_of_eq lengthEq.symm),
    List.take_of_length_le (Nat.le_of_eq lengthEq), fromBeBytes_beBytes fits]

/-- The immediate successor of a byte string of some length is the first that comes
after it. -/
theorem lt_append_zero_iff {first second : Bytes} (sameLength : first.length = second.length) :
    first < second ++ [0] ↔ first ≤ second := by
  induction first generalizing second with
  | nil =>
      obtain rfl := List.length_eq_zero_iff.mp sameLength.symm
      exact iff_of_true (List.nil_lt_cons _ _) (List.nil_le _)
  | cons byte first ih =>
      cases second with
      | nil => cases sameLength
      | cons other second =>
          rw [List.cons_append, List.cons_lt_cons_iff, List.cons_le_cons_iff,
            ih (Nat.succ.inj sameLength)]

theorem append_zero_le_iff {first second : Bytes} (sameLength : first.length = second.length) :
    second ++ [0] ≤ first ↔ second < first := by
  rw [← List.not_lt, lt_append_zero_iff sameLength, List.not_le]

/-! ## Keys of blocks -/

/-- `ListableKey`: the keys of all blocks, and of those with transactions. -/
inductive ListableKey
  | block
  | nonEmptyBlock
  deriving DecidableEq, Repr

namespace ListableKey

/-- The key of a height. -/
def toKey : ListableKey → Nat → Key
  | block => Key.block
  | nonEmptyBlock => Key.nonEmptyBlock

/-- The first height that a listing can have. -/
def minValue : Nat := 0

/-- The last height that a listing can have. -/
def maxValue : Nat := 2 ^ 64 - 1

/-- The first byte of every key that is listed. -/
def kind : ListableKey → BitVec 8
  | block => 0
  | nonEmptyBlock => 6

variable (keys : ListableKey) {height other : Nat}

@[simp]
theorem serialize_toKey (height : Nat) :
    (keys.toKey height).serialize = keys.kind :: beBytes 8 height := by
  cases keys with
  | block => rfl
  | nonEmptyBlock => rfl

@[simp]
theorem deserialize_toKey (fits : height < 2 ^ 64) :
    Key.deserialize (keys.toKey height).serialize = .ok (keys.toKey height) := by
  rw [serialize_toKey]
  cases keys with
  | block =>
      change Key.block <$> readBytes 8 (beBytes 8 height) = _
      rw [readBytes_beBytes fits]
      rfl
  | nonEmptyBlock =>
      change Key.nonEmptyBlock <$> readBytes 8 (beBytes 8 height) = _
      rw [readBytes_beBytes fits]
      rfl

/-! The bytes of keys are ordered as the heights. -/

theorem serialize_lt_iff (fits : height < 2 ^ 64) (otherFits : other < 2 ^ 64) :
    (keys.toKey height).serialize < (keys.toKey other).serialize ↔ height < other := by
  have sameWidth : 256 ^ 8 = 2 ^ 64 := by decide
  rw [serialize_toKey, serialize_toKey, List.cons_lt_cons_iff, beBytes_lt_beBytes_iff, sameWidth,
    Nat.mod_eq_of_lt fits, Nat.mod_eq_of_lt otherFits, or_iff_right (BitVec.lt_irrefl _),
    and_iff_right rfl]

theorem serialize_le_iff (fits : height < 2 ^ 64) (otherFits : other < 2 ^ 64) :
    (keys.toKey height).serialize ≤ (keys.toKey other).serialize ↔ height ≤ other := by
  rw [← List.not_lt, serialize_lt_iff keys otherFits fits, Nat.not_lt]

theorem length_serialize (height other : Nat) :
    (keys.toKey height).serialize.length = (keys.toKey other).serialize.length := by
  rw [serialize_toKey, serialize_toKey, List.length_cons, List.length_cons, length_beBytes,
    length_beBytes]

theorem serialize_lt_successor_iff (fits : height < 2 ^ 64) (otherFits : other < 2 ^ 64) :
    (keys.toKey height).serialize < (keys.toKey other).serializeImmediateSuccessor ↔
      height ≤ other := by
  rw [Key.serializeImmediateSuccessor, lt_append_zero_iff (length_serialize keys height other),
    serialize_le_iff keys fits otherFits]

theorem successor_le_serialize_iff (fits : height < 2 ^ 64) (otherFits : other < 2 ^ 64) :
    (keys.toKey other).serializeImmediateSuccessor ≤ (keys.toKey height).serialize ↔
      other < height := by
  rw [Key.serializeImmediateSuccessor, append_zero_le_iff (length_serialize keys height other),
    serialize_lt_iff keys otherFits fits]

end ListableKey

end Ciphera.BlockStore
