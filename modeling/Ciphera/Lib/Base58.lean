import Ciphera.Lib.Numerals
import Mathlib.Data.BitVec

/-!
# Byte strings in base 58

Each leading zero byte is one leading letter `1`; the other bytes are the digits of a
number, which is written in base 58.
-/

namespace Ciphera.Lib.Base58

open Numerals

/-- The letters of the digits, without the ones that are easily confused. -/
def alphabet : List Char :=
  "123456789ABCDEFGHJKLMNPQRSTUVWXYZabcdefghijkmnopqrstuvwxyz".toList

/-- The letter of a digit. -/
def letter (digit : Nat) : Char := alphabet.getD digit '1'

/-- The text of bytes: their number in base 58, a letter for each digit. -/
def encode (bytes : List (BitVec 8)) : String :=
  String.ofList ((rebase 256 58 (bytes.map BitVec.toNat)).map letter)

/-- The bytes of a text, if it has no character outside the alphabet. -/
def decode (text : String) : Option (List (BitVec 8)) :=
  (text.toList.mapM fun character => alphabet.idxOf? character).map fun digits =>
    (rebase 58 256 digits).map (BitVec.ofNat 8)

@[simp]
theorem idxOf?_letter : ∀ digit < 58, alphabet.idxOf? (letter digit) = some digit := by
  decide

@[simp]
theorem mapM_idxOf?_letter {digits : List Nat} (below : ∀ digit ∈ digits, digit < 58) :
    (digits.map letter).mapM (fun character => alphabet.idxOf? character) = some digits := by
  induction digits with
  | nil => rfl
  | cons digit digits ih =>
      rw [List.forall_mem_cons] at below
      rw [List.map_cons, List.mapM_cons, idxOf?_letter digit below.1, ih below.2]
      rfl

@[simp]
theorem map_ofNat_toNat (bytes : List (BitVec 8)) :
    (bytes.map BitVec.toNat).map (BitVec.ofNat 8) = bytes := by
  rw [List.map_map]
  apply List.map_id''
  intro byte
  exact (BitVec.ofNat_toNat 8 byte).trans (BitVec.setWidth_eq byte)

/-- Decoding inverts encoding on every byte string. -/
@[simp]
theorem decode_encode (bytes : List (BitVec 8)) : decode (encode bytes) = some bytes := by
  have below : ∀ digit ∈ bytes.map BitVec.toNat, digit < 256 := by
    intro digit mem
    rcases List.mem_map.mp mem with ⟨byte, _, rfl⟩
    exact byte.isLt
  rw [decode, encode, String.toList_ofList,
    mapM_idxOf?_letter fun _ => lt_of_mem_rebase (by decide), Option.map_some,
    rebase_rebase (by decide) below, map_ofNat_toNat]

end Ciphera.Lib.Base58
