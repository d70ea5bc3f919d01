import Ciphera.Lib.Returns
import Ciphera.Lib.Words
import Ciphera.Rollup.Contract

/-!
# Escrows of the swap service

A swap is committed by a call whose data is an ABI-encoded escrow.  Its flags word holds a
sequence number and three flags; the parser expects nothing else there.  A word with a bit
from the 128th on panics, and the bits between the flags and the sequence number are
dropped, so that the escrow read does not encode to what was committed.
-/

namespace Ciphera.Substitutor

open Ciphera.Lib Ciphera.Lib.Words
open Ciphera.Rollup (Address)

/-- Encoded data. -/
abbrev Bytes := List (BitVec 8)

/-- `[u8; 32]` -/
abbrev Bytes32 := { bytes : Bytes // bytes.length = 32 }

/-- The bit of an escrow that pays out. -/
def FLAG_PAY_OUT : BitVec 64 := 0x01

/-- The bit of an escrow that pays in. -/
def FLAG_PAY_IN : BitVec 64 := 0x02

/-- The bit of an escrow that counts for the reputation. -/
def FLAG_REPUTATION : BitVec 64 := 0x04

/-- The flags that are known, and the sequence number. -/
structure Flags where
  payOut : Bool
  payIn : Bool
  reputation : Bool
  sequence : BitVec 64
  deriving DecidableEq, Repr

/-- `U256::as_u64` -/
def asU64 (value : BitVec 256) : Except (Stop String) (BitVec 64) := do
  check (value.toNat < 2 ^ 64) (.panic "Integer overflow when casting to u64")
  pure (value.setWidth 64)

namespace Flags

/-- Read the flags of a word; a number that does not fit into 64 bits panics. -/
def fromU256 (value : BitVec 256) : Except (Stop String) Flags := do
  -- everything above the low half is cast, not just the bits 64 to 127
  let sequence ← asU64 (value >>> 64)
  let mask : BitVec 256 := 0xFFFFFFFFFFFFFFFF
  let lowerBits ← asU64 (value &&& mask)
  pure {
    sequence
    payOut := lowerBits &&& FLAG_PAY_OUT = FLAG_PAY_OUT
    payIn := lowerBits &&& FLAG_PAY_IN = FLAG_PAY_IN
    reputation := lowerBits &&& FLAG_REPUTATION = FLAG_REPUTATION }

/-- The word of flags. -/
def toU256 (flags : Flags) : BitVec 256 :=
  let sequenceBits := flags.sequence.setWidth 256 <<< 64
  let flagBits := (if flags.payOut then FLAG_PAY_OUT else 0) |||
    (if flags.payIn then FLAG_PAY_IN else 0) |||
    (if flags.reputation then FLAG_REPUTATION else 0)
  sequenceBits ||| flagBits.setWidth 256

end Flags

/-- The terms of an escrow. -/
structure EscrowData where
  offerer : Address
  claimer : Address
  amount : BitVec 256
  token : Address
  flags : Flags
  claimHandler : Address
  claimData : Bytes32
  refundHandler : Address
  refundData : Bytes32
  securityDeposit : BitVec 256
  claimerBounty : BitVec 256
  depositToken : Address
  successActionCommitment : Bytes32
  deriving DecidableEq, Repr

/-! ## Words -/

/-- `&data[offset..offset + 32]` -/
def slice (data : Bytes) (offset : Nat) : Except (Stop String) Bytes := do
  check (offset + 32 ≤ data.length) (.panic "range end index out of range for slice")
  pure ((data.drop offset).take 32)

/-- The address in the last 20 bytes of a word. -/
def decodeAddress (data : Bytes) : Except (Stop String) Address := do
  check (data.length = 32) (.error "Address data must be 32 bytes")
  pure (BitVec.ofNat 160 (fromBeBytes (data.drop 12)))

/-- The number of a word. -/
def decodeU256 (data : Bytes) : Except (Stop String) (BitVec 256) := do
  check (data.length = 32) (.error "U256 data must be 32 bytes")
  pure (BitVec.ofNat 256 (fromBeBytes data))

/-- The 32 bytes of a word. -/
def decodeBytes32 (data : Bytes) : Except (Stop String) Bytes32 :=
  if length : data.length = 32 then pure ⟨data, length⟩
  else .error (.error "bytes32 data must be 32 bytes")

/-- The word of an address. -/
def encodeAddress (address : Address) : Bytes := List.replicate 12 0 ++ beBytes 20 address.toNat

/-- The word of a number. -/
def encodeU256 (value : BitVec 256) : Bytes := beBytes 32 value.toNat

/-! ## The parser -/

namespace EscrowData

/-- Read thirteen words; what stands behind them is ignored. -/
def fromAbiEncoded (data : Bytes) : Except (Stop String) EscrowData := do
  check (416 ≤ data.length) (.error
    s!"Insufficient data for EscrowData: expected at least 416 bytes, got {data.length}")
  let offerer ← slice data (32 * 0) >>= decodeAddress
  let claimer ← slice data (32 * 1) >>= decodeAddress
  let amount ← slice data (32 * 2) >>= decodeU256
  let token ← slice data (32 * 3) >>= decodeAddress
  let flagsRaw ← slice data (32 * 4) >>= decodeU256
  let flags ← Flags.fromU256 flagsRaw
  let claimHandler ← slice data (32 * 5) >>= decodeAddress
  let claimData ← slice data (32 * 6) >>= decodeBytes32
  let refundHandler ← slice data (32 * 7) >>= decodeAddress
  let refundData ← slice data (32 * 8) >>= decodeBytes32
  let securityDeposit ← slice data (32 * 9) >>= decodeU256
  let claimerBounty ← slice data (32 * 10) >>= decodeU256
  let depositToken ← slice data (32 * 11) >>= decodeAddress
  let successActionCommitment ← slice data (32 * 12) >>= decodeBytes32
  pure {
    offerer, claimer, amount, token, flags, claimHandler, claimData, refundHandler, refundData,
    securityDeposit, claimerBounty, depositToken, successActionCommitment }

/-- The function selector is told by the length. -/
def withoutSelector (calldata : Bytes) : Bytes :=
  if calldata.length > 4 ∧ calldata.length % 32 = 4 then calldata.drop 4 else calldata

/-- Read the arguments of a call, behind its selector. -/
def fromTransactionCalldata (calldata : Bytes) : Except (Stop String) EscrowData :=
  fromAbiEncoded (withoutSelector calldata)

/-- The words of the encoding. -/
def fields (escrow : EscrowData) : List Bytes :=
  [encodeAddress escrow.offerer,
    encodeAddress escrow.claimer,
    encodeU256 escrow.amount,
    encodeAddress escrow.token,
    encodeU256 escrow.flags.toU256,
    encodeAddress escrow.claimHandler,
    escrow.claimData,
    encodeAddress escrow.refundHandler,
    escrow.refundData,
    encodeU256 escrow.securityDeposit,
    encodeU256 escrow.claimerBounty,
    encodeAddress escrow.depositToken,
    escrow.successActionCommitment]

/-- The words of the terms, one after another. -/
def toAbiEncoded (escrow : EscrowData) : Bytes := escrow.fields.flatten

/-- The hash under which the contract keeps an escrow. -/
def escrowHash (keccak : Keccak) (escrow : EscrowData) : BitVec 256 := keccak escrow.toAbiEncoded

end EscrowData

/-! ## Flags words -/

theorem asU64_of_lt {value : BitVec 256} (fits : value.toNat < 2 ^ 64) :
    asU64 value = .ok (value.setWidth 64) := by
  rw [asU64, check_of _ fits]
  rfl

namespace Flags

/-- The flags in the low bits of a word, and the sequence number above them. -/
def ofWord (value : BitVec 256) : Flags where
  payOut := value.getLsbD 0
  payIn := value.getLsbD 1
  reputation := value.getLsbD 2
  sequence := (value >>> 64).setWidth 64

theorem and_twoPow_eq_iff (bits : BitVec 64) (index : Nat) (inside : index < 64) :
    decide (bits &&& BitVec.twoPow 64 index = BitVec.twoPow 64 index) = bits.getLsbD index := by
  rw [BitVec.and_twoPow]
  cases bits.getLsbD index with
  | true => simp
  | false =>
      have positive : BitVec.twoPow 64 index ≠ 0 := by
        intro zero
        have bit := congrArg (·.getLsbD index) zero
        simp [inside] at bit
      simpa using positive.symm

@[simp]
theorem lower_toNat (value : BitVec 256) :
    (value &&& (0xFFFFFFFFFFFFFFFF : BitVec 256)).toNat = value.toNat % 2 ^ 64 := by
  rw [BitVec.toNat_and]
  exact Nat.and_two_pow_sub_one_eq_mod value.toNat 64

@[simp]
theorem fromU256_eq (value : BitVec 256) :
    fromU256 value = if value.toNat < 2 ^ 128 then .ok (ofWord value)
      else .error (.panic "Integer overflow when casting to u64") := by
  have lowFits : (value &&& (0xFFFFFFFFFFFFFFFF : BitVec 256)).toNat < 2 ^ 64 := by
    rw [lower_toNat]
    exact Nat.mod_lt _ (by decide)
  have highIff : (value >>> 64).toNat < 2 ^ 64 ↔ value.toNat < 2 ^ 128 := by
    rw [BitVec.toNat_ushiftRight, Nat.shiftRight_eq_div_pow, Nat.div_lt_iff_lt_mul (by decide),
      ← Nat.pow_add]
  split_ifs with fits
  · have bit : ∀ index < 64,
        (BitVec.setWidth 64 (value &&& (0xFFFFFFFFFFFFFFFF : BitVec 256))).getLsbD index =
          value.getLsbD index := by
      intro index inside
      rw [BitVec.getLsbD_setWidth, ← BitVec.testBit_toNat, lower_toNat, Nat.testBit_mod_two_pow,
        ← BitVec.testBit_toNat]
      simp [inside]
    simp only [fromU256, asU64_of_lt (highIff.mpr fits), asU64_of_lt lowFits, ok_bind]
    rw [ofWord, show FLAG_PAY_OUT = BitVec.twoPow 64 0 from rfl,
      show FLAG_PAY_IN = BitVec.twoPow 64 1 from rfl,
      show FLAG_REPUTATION = BitVec.twoPow 64 2 from rfl,
      and_twoPow_eq_iff _ 0 (by decide), and_twoPow_eq_iff _ 1 (by decide),
      and_twoPow_eq_iff _ 2 (by decide), bit 0 (by decide), bit 1 (by decide), bit 2 (by decide)]
    rfl
  · have overflows : ¬(value >>> 64).toNat < 2 ^ 64 := mt highIff.mp fits
    rw [fromU256, asU64, check, if_neg overflows]
    rfl

@[simp]
theorem toU256_toNat (flags : Flags) :
    flags.toU256.toNat = 2 ^ 64 * flags.sequence.toNat +
      (flags.payOut.toNat + 2 * flags.payIn.toNat + 4 * flags.reputation.toNat) := by
  have sequenceLt := flags.sequence.isLt
  have high : (flags.sequence.setWidth 256 <<< 64).toNat = 2 ^ 64 * flags.sequence.toNat := by
    rw [BitVec.toNat_shiftLeft, BitVec.toNat_setWidth, Nat.shiftLeft_eq]
    omega
  have low : ∀ first second third : Bool,
      (((if first then FLAG_PAY_OUT else 0) ||| (if second then FLAG_PAY_IN else 0) |||
        (if third then FLAG_REPUTATION else 0)).setWidth 256).toNat =
          first.toNat + 2 * second.toNat + 4 * third.toNat := by decide
  have small :
      flags.payOut.toNat + 2 * flags.payIn.toNat + 4 * flags.reputation.toNat < 2 ^ 64 := by
    have first := flags.payOut.toNat_le
    have second := flags.payIn.toNat_le
    have third := flags.reputation.toNat_le
    omega
  rw [toU256, BitVec.toNat_or, high, low, ← Nat.two_pow_add_eq_or_of_lt small]

@[simp]
theorem fromU256_toU256 (flags : Flags) : fromU256 flags.toU256 = .ok flags := by
  have value := flags.toU256_toNat
  have sequenceLt := flags.sequence.isLt
  have first := flags.payOut.toNat_le
  have second := flags.payIn.toNat_le
  have third := flags.reputation.toNat_le
  have fits : flags.toU256.toNat < 2 ^ 128 := by omega
  have sequenceEq : (flags.toU256 >>> 64).setWidth 64 = flags.sequence := by
    apply BitVec.eq_of_toNat_eq
    rw [BitVec.toNat_setWidth, BitVec.toNat_ushiftRight, Nat.shiftRight_eq_div_pow, value]
    omega
  have bit : ∀ index < 3, flags.toU256.getLsbD index =
      (flags.payOut.toNat + 2 * flags.payIn.toNat + 4 * flags.reputation.toNat).testBit index := by
    intro index inside
    rw [← BitVec.testBit_toNat, value, Nat.testBit_two_pow_mul_add _ (by omega)]
    simp [show index < 64 by omega]
  have bits : ∀ first second third : Bool,
      (first.toNat + 2 * second.toNat + 4 * third.toNat).testBit 0 = first ∧
      (first.toNat + 2 * second.toNat + 4 * third.toNat).testBit 1 = second ∧
      (first.toNat + 2 * second.toNat + 4 * third.toNat).testBit 2 = third := by decide
  rcases bits flags.payOut flags.payIn flags.reputation with ⟨bitZero, bitOne, bitTwo⟩
  rw [fromU256_eq, if_pos fits, ofWord, sequenceEq, bit 0 (by decide), bit 1 (by decide),
    bit 2 (by decide), bitZero, bitOne, bitTwo]

/-- A flags word is read without loss exactly when nothing stands between the flags and the
sequence number. -/
theorem toU256_ofWord_eq_iff {value : BitVec 256} (fits : value.toNat < 2 ^ 128) :
    (ofWord value).toU256 = value ↔ value.toNat % 2 ^ 64 < 8 := by
  have bit : ∀ index, (value.getLsbD index).toNat = value.toNat / 2 ^ index % 2 := by
    intro index
    rw [← BitVec.testBit_toNat, Nat.toNat_testBit]
  have sequenceEq : ((value >>> 64).setWidth 64).toNat = value.toNat / 2 ^ 64 := by
    rw [BitVec.toNat_setWidth, BitVec.toNat_ushiftRight, Nat.shiftRight_eq_div_pow]
    omega
  rw [← BitVec.toNat_inj, toU256_toNat, ofWord, sequenceEq, bit, bit, bit]
  omega

end Flags

/-! ## Addresses and numbers -/

/-- The address in a word. -/
def addressOf (word : Bytes) : Address := BitVec.ofNat 160 (fromBeBytes (word.drop 12))

/-- The number in a word. -/
def numberOf (word : Bytes) : BitVec 256 := BitVec.ofNat 256 (fromBeBytes word)

/-- The bytes before an address are zero. -/
def Padded (word : Bytes) : Prop := word.take 12 = List.replicate 12 0

@[simp]
theorem length_encodeAddress (address : Address) : (encodeAddress address).length = 32 := by
  rw [encodeAddress, List.length_append, List.length_replicate, length_beBytes]

@[simp]
theorem length_encodeU256 (value : BitVec 256) : (encodeU256 value).length = 32 :=
  length_beBytes 32 _

@[simp]
theorem addressOf_encodeAddress (address : Address) :
    addressOf (encodeAddress address) = address := by
  rw [addressOf, encodeAddress, List.drop_left' List.length_replicate,
    fromBeBytes_beBytes (show address.toNat < 256 ^ 20 from address.isLt)]
  exact (BitVec.ofNat_toNat 160 address).trans (BitVec.setWidth_eq address)

@[simp]
theorem numberOf_encodeU256 (value : BitVec 256) : numberOf (encodeU256 value) = value := by
  rw [numberOf, encodeU256, fromBeBytes_beBytes (show value.toNat < 256 ^ 32 from value.isLt)]
  exact (BitVec.ofNat_toNat 256 value).trans (BitVec.setWidth_eq value)

theorem encodeU256_numberOf {word : Bytes} (length : word.length = 32) :
    encodeU256 (numberOf word) = word := by
  have fits : fromBeBytes word < 2 ^ 256 := by
    have bound := fromBeBytes_lt word
    rwa [length] at bound
  rw [encodeU256, numberOf, BitVec.toNat_ofNat, Nat.mod_eq_of_lt fits, beBytes_fromBeBytes length]

/-- A word that holds an address is read without loss exactly when it is padded with zeros. -/
theorem encodeAddress_addressOf_eq_iff {word : Bytes} (length : word.length = 32) :
    encodeAddress (addressOf word) = word ↔ Padded word := by
  have tailLength : (word.drop 12).length = 20 := by rw [List.length_drop, length]
  have fits : fromBeBytes (word.drop 12) < 2 ^ 160 := by
    have bound := fromBeBytes_lt (word.drop 12)
    rwa [tailLength] at bound
  rw [encodeAddress, addressOf, BitVec.toNat_ofNat, Nat.mod_eq_of_lt fits,
    beBytes_fromBeBytes tailLength, Padded]
  constructor
  · intro same
    rw [← same, List.take_left' List.length_replicate]
  · intro padded
    rw [← padded, List.take_append_drop]

/-! ## What the parser reads -/

theorem slice_eq {data : Bytes} {index : Nat} (inside : 32 * (index + 1) ≤ data.length) :
    slice data (32 * index) = .ok (word 32 data index) := by
  rw [slice, check_of _ (by omega)]
  rfl

theorem decodeAddress_eq {word : Bytes} (length : word.length = 32) :
    decodeAddress word = .ok (addressOf word) := by
  rw [decodeAddress, check_of _ length]
  rfl

theorem decodeU256_eq {word : Bytes} (length : word.length = 32) :
    decodeU256 word = .ok (numberOf word) := by
  rw [decodeU256, check_of _ length]
  rfl

theorem decodeBytes32_eq {word : Bytes} (length : word.length = 32) :
    decodeBytes32 word = .ok ⟨word, length⟩ := by
  rw [decodeBytes32, dif_pos length]
  rfl

/-- The flags word of encoded data. -/
def flagsWord (data : Bytes) : BitVec 256 := numberOf (word 32 data 4)

/-- The bytes before the addresses of encoded data are zero. -/
def AddressesPadded (data : Bytes) : Prop :=
  ∀ index ∈ [0, 1, 3, 5, 7, 11], Padded (word 32 data index)

namespace EscrowData

/-- The escrow that stands in long enough data, but for its flags. -/
def ofData (data : Bytes) (enough : 416 ≤ data.length) (flags : Flags) : EscrowData where
  offerer := addressOf (word 32 data 0)
  claimer := addressOf (word 32 data 1)
  amount := numberOf (word 32 data 2)
  token := addressOf (word 32 data 3)
  flags
  claimHandler := addressOf (word 32 data 5)
  claimData := ⟨word 32 data 6, length_word (by omega)⟩
  refundHandler := addressOf (word 32 data 7)
  refundData := ⟨word 32 data 8, length_word (by omega)⟩
  securityDeposit := numberOf (word 32 data 9)
  claimerBounty := numberOf (word 32 data 10)
  depositToken := addressOf (word 32 data 11)
  successActionCommitment := ⟨word 32 data 12, length_word (by omega)⟩

section

variable {data : Bytes} (enough : 416 ≤ data.length) {index : Nat} (inside : index < 13)

include enough inside

theorem slice_decodeAddress :
    (slice data (32 * index) >>= decodeAddress) = .ok (addressOf (word 32 data index)) := by
  rw [slice_eq (by omega), ok_bind, decodeAddress_eq (length_word (by omega))]

theorem slice_decodeU256 :
    (slice data (32 * index) >>= decodeU256) = .ok (numberOf (word 32 data index)) := by
  rw [slice_eq (by omega), ok_bind, decodeU256_eq (length_word (by omega))]

theorem slice_decodeBytes32 :
    (slice data (32 * index) >>= decodeBytes32) =
      .ok ⟨word 32 data index, length_word (by omega)⟩ := by
  rw [slice_eq (by omega), ok_bind, decodeBytes32_eq]

end

theorem fromAbiEncoded_eq {data : Bytes} (enough : 416 ≤ data.length) :
    fromAbiEncoded data = ofData data enough <$> Flags.fromU256 (flagsWord data) := by
  simp (disch := decide) only [fromAbiEncoded, check_of _ enough, ok_bind,
    slice_decodeAddress enough, slice_decodeU256 enough, slice_decodeBytes32 enough]
  rfl

/-- The parser returns unless the flags word is too large to be cast. -/
theorem returns_fromAbiEncoded_iff (data : Bytes) :
    Returns (fromAbiEncoded data) ↔
      (416 ≤ data.length → (flagsWord data).toNat < 2 ^ 128) := by
  by_cases enough : 416 ≤ data.length
  · rw [fromAbiEncoded_eq enough, Flags.fromU256_eq]
    split_ifs with fits
    · exact iff_of_true (returns_ok _) fun _ => fits
    · exact iff_of_false (not_returns_panic _) fun always => fits (always enough)
  · rw [fromAbiEncoded, check, if_neg enough]
    exact iff_of_true (returns_error _) fun long => absurd long enough

theorem fromAbiEncoded_eq_ok_iff {data : Bytes} {escrow : EscrowData} :
    fromAbiEncoded data = .ok escrow ↔ ∃ enough : 416 ≤ data.length,
      (flagsWord data).toNat < 2 ^ 128 ∧
        escrow = ofData data enough (Flags.ofWord (flagsWord data)) := by
  by_cases enough : 416 ≤ data.length
  · rw [fromAbiEncoded_eq enough, Flags.fromU256_eq]
    rw [exists_prop_of_true enough]
    split_ifs with fits
    · rw [and_iff_right fits]
      constructor
      · exact fun read => (Except.ok.inj read).symm
      · exact fun read => congrArg Except.ok read.symm
    · apply iff_of_false
      · intro isOk
        cases isOk
      · exact fun read => fits read.1
  · rw [fromAbiEncoded, check, if_neg enough]
    apply iff_of_false
    · intro isOk
      cases isOk
    · exact fun read => enough read.1

/-! ## Round trips -/

theorem length_of_mem_fields {escrow : EscrowData} {field : Bytes}
    (mem : field ∈ escrow.fields) : field.length = 32 := by
  have claimData := escrow.claimData.2
  have refundData := escrow.refundData.2
  have successActionCommitment := escrow.successActionCommitment.2
  simp only [fields, List.mem_cons, List.not_mem_nil, or_false] at mem
  rcases mem with rfl | rfl | rfl | rfl | rfl | rfl | rfl | rfl | rfl | rfl | rfl | rfl | rfl <;>
    simp_all

@[simp]
theorem length_toAbiEncoded (escrow : EscrowData) : escrow.toAbiEncoded.length = 416 :=
  length_flatten fun _ => length_of_mem_fields

@[simp]
theorem words_toAbiEncoded (escrow : EscrowData) :
    words 32 13 escrow.toAbiEncoded = escrow.fields :=
  words_flatten (fun _ => length_of_mem_fields) rfl

/-- An escrow is read back from its encoding. -/
@[simp]
theorem fromAbiEncoded_toAbiEncoded (escrow : EscrowData) :
    fromAbiEncoded escrow.toAbiEncoded = .ok escrow := by
  have enough : 416 ≤ escrow.toAbiEncoded.length := (length_toAbiEncoded escrow).ge
  have same := words_toAbiEncoded escrow
  simp only [words, List.range_succ, List.range_zero, List.nil_append, List.cons_append,
    List.map_cons, List.map_nil, fields, List.cons.injEq, and_true] at same
  rcases same with ⟨w0, w1, w2, w3, w4, w5, w6, w7, w8, w9, w10, w11, w12⟩
  have flags : Flags.fromU256 (flagsWord escrow.toAbiEncoded) = .ok escrow.flags := by
    rw [flagsWord, w4, numberOf_encodeU256, Flags.fromU256_toU256]
  have read : ofData escrow.toAbiEncoded enough escrow.flags = escrow := by
    cases escrow
    simp only [ofData, w0, w1, w2, w3, w5, w6, w7, w8, w9, w10, w11, w12,
      addressOf_encodeAddress, numberOf_encodeU256]
  rw [fromAbiEncoded_eq enough, flags]
  exact congrArg Except.ok read

/-- An escrow is read back from the data of a call. -/
theorem fromTransactionCalldata_selector {selector : Bytes} (four : selector.length = 4)
    (escrow : EscrowData) :
    fromTransactionCalldata (selector ++ escrow.toAbiEncoded) = .ok escrow := by
  have told : (selector ++ escrow.toAbiEncoded).length > 4 ∧
      (selector ++ escrow.toAbiEncoded).length % 32 = 4 := by
    rw [List.length_append, four, length_toAbiEncoded]
    decide
  rw [fromTransactionCalldata, withoutSelector, if_pos told, List.drop_left' four,
    fromAbiEncoded_toAbiEncoded]

/-- Data with padded addresses is encoded back exactly when its flags word is. -/
theorem toAbiEncoded_ofData_eq_iff {data : Bytes} (enough : 416 ≤ data.length)
    (padded : AddressesPadded data) (flags : Flags) :
    (ofData data enough flags).toAbiEncoded = data.take 416 ↔ flags.toU256 = flagsWord data := by
  have lengthWord : ∀ index < 13, (word 32 data index).length = 32 :=
    fun index inside => length_word (by omega)
  have address : ∀ index ∈ [0, 1, 3, 5, 7, 11],
      encodeAddress (addressOf (word 32 data index)) = word 32 data index := by
    intro index mem
    have inside : index < 13 := by
      simp only [List.mem_cons, List.not_mem_nil, or_false] at mem
      omega
    exact (encodeAddress_addressOf_eq_iff (lengthWord index inside)).mpr (padded index mem)
  have number : ∀ index < 13,
      encodeU256 (numberOf (word 32 data index)) = word 32 data index :=
    fun index inside => encodeU256_numberOf (lengthWord index inside)
  have joined : (ofData data enough flags).fields.flatten = data.take (32 * 13) ↔
      (ofData data enough flags).fields = words 32 13 data :=
    flatten_eq_take_iff (fun _ => length_of_mem_fields) rfl enough
  rw [toAbiEncoded, show 416 = 32 * 13 from rfl, joined]
  simp only [words, List.range_succ, List.range_zero, List.nil_append, List.cons_append,
    List.map_cons, List.map_nil, fields, ofData, List.cons.injEq, and_true,
    address 0 (by decide), address 1 (by decide), address 3 (by decide), address 5 (by decide),
    address 7 (by decide), address 11 (by decide), number 2 (by decide), number 9 (by decide),
    number 10 (by decide), true_and]
  constructor
  · intro same
    rw [flagsWord, ← same, numberOf_encodeU256]
  · intro same
    rw [same, flagsWord, number 4 (by decide)]

/-! ## Faithful parsing -/

/-- Both entries return, encoded escrows are read back, and data with padded addresses is
encoded back, so that the hash of the escrow is that of the data. -/
structure Faithful (data : Bytes) : Prop where
  returns : Returns (fromTransactionCalldata data) ∧ Returns (fromAbiEncoded data)
  readsBack : ∀ escrow : EscrowData, fromAbiEncoded escrow.toAbiEncoded = .ok escrow
  writesBack : ∀ escrow, fromAbiEncoded data = .ok escrow → AddressesPadded data →
    escrow.toAbiEncoded = data.take 416 ∧
      ∀ keccak : Keccak, escrow.escrowHash keccak = keccak (data.take 416)

/-- An escrow is parsed faithfully exactly when its flags word holds nothing but the three
flags and a sequence number of 64 bits. -/
theorem faithful_iff (data : Bytes) :
    Faithful data ↔
      (416 ≤ data.length → (flagsWord data).toNat < 2 ^ 128 ∧
        (AddressesPadded data → (flagsWord data).toNat % 2 ^ 64 < 8)) ∧
      (416 ≤ (withoutSelector data).length →
        (flagsWord (withoutSelector data)).toNat < 2 ^ 128) := by
  constructor
  · rintro ⟨⟨calldata, direct⟩, _, writesBack⟩
    constructor
    · intro enough
      have fits := (returns_fromAbiEncoded_iff data).mp direct enough
      refine ⟨fits, fun padded => ?_⟩
      have written := (writesBack _ (fromAbiEncoded_eq_ok_iff.mpr ⟨enough, fits, rfl⟩) padded).1
      exact (Flags.toU256_ofWord_eq_iff fits).mp
        ((toAbiEncoded_ofData_eq_iff enough padded _).mp written)
    · exact (returns_fromAbiEncoded_iff (withoutSelector data)).mp calldata
  · rintro ⟨flags, calldata⟩
    constructor
    · exact ⟨(returns_fromAbiEncoded_iff (withoutSelector data)).mpr calldata,
        (returns_fromAbiEncoded_iff data).mpr fun enough => (flags enough).1⟩
    · exact fromAbiEncoded_toAbiEncoded
    · intro escrow parsed padded
      rcases fromAbiEncoded_eq_ok_iff.mp parsed with ⟨enough, fits, rfl⟩
      have same := (Flags.toU256_ofWord_eq_iff fits).mpr ((flags enough).2 padded)
      have written := (toAbiEncoded_ofData_eq_iff enough padded _).mpr same
      exact ⟨written, fun keccak => congrArg keccak written⟩

/-- The encoding of an escrow of zeros with a flags word. -/
def zerosWithFlags (value : BitVec 256) : Bytes :=
  List.replicate 128 0 ++ (encodeU256 value ++ List.replicate 256 0)

/-- A bit above the sequence number panics, and one below it is dropped. -/
theorem unknown_flags_not_faithful :
    ¬Returns (fromAbiEncoded (zerosWithFlags (BitVec.twoPow 256 128))) ∧
      ∃ escrow, fromAbiEncoded (zerosWithFlags 8) = .ok escrow ∧
        AddressesPadded (zerosWithFlags 8) ∧
        escrow.toAbiEncoded ≠ (zerosWithFlags 8).take 416 := by
  have flagsEq : ∀ value, flagsWord (zerosWithFlags value) = value := by
    intro value
    rw [flagsWord, word, zerosWithFlags, List.drop_left' List.length_replicate,
      List.take_left' (length_encodeU256 value), numberOf_encodeU256]
  have enough : ∀ value, 416 ≤ (zerosWithFlags value).length := by
    intro value
    rw [zerosWithFlags, List.length_append, List.length_append, List.length_replicate,
      List.length_replicate, length_encodeU256]
  constructor
  · rw [returns_fromAbiEncoded_iff, flagsEq]
    exact fun fits => absurd (fits (enough _)) (by decide)
  · have padded : AddressesPadded (zerosWithFlags 8) := by
      intro index mem
      simp only [List.mem_cons, List.not_mem_nil, or_false] at mem
      rcases mem with rfl | rfl | rfl | rfl | rfl | rfl <;> rfl
    have fits : (flagsWord (zerosWithFlags 8)).toNat < 2 ^ 128 := by
      rw [flagsEq]
      decide
    refine ⟨_, fromAbiEncoded_eq_ok_iff.mpr ⟨enough 8, fits, rfl⟩, padded, ?_⟩
    rw [Ne, toAbiEncoded_ofData_eq_iff (enough 8) padded, Flags.toU256_ofWord_eq_iff fits, flagsEq]
    decide

end EscrowData

end Ciphera.Substitutor
