import Mathlib.Data.BitVec
import Mathlib.Tactic.Ring

/-!
# Digests of byte strings
-/

namespace Ciphera

/-- The digest of a byte string. -/
abbrev Keccak := List (BitVec 8) → BitVec 256

/-- The low `count` bytes of a number, most significant first. -/
def beBytes (count number : Nat) : List (BitVec 8) :=
  (List.range count).reverse.map fun index => BitVec.ofNat 8 (number / 256 ^ index)

/-- The low `count` bytes of a number, least significant first. -/
def leBytes (count number : Nat) : List (BitVec 8) :=
  (List.range count).map fun index => BitVec.ofNat 8 (number / 256 ^ index)

/-- The number that bytes stand for, the most significant first. -/
def fromBeBytes (bytes : List (BitVec 8)) : Nat :=
  bytes.foldl (fun number byte => 256 * number + byte.toNat) 0

/-- The bytes of a text of ASCII characters. -/
def asciiBytes (text : String) : List (BitVec 8) :=
  text.toList.map fun character => BitVec.ofNat 8 character.toNat

theorem beBytes_succ (count number : Nat) :
    beBytes (count + 1) number =
      BitVec.ofNat 8 (number / 256 ^ count) :: beBytes count number := by
  simp [beBytes, List.range_succ]

@[simp]
theorem length_beBytes (count number : Nat) : (beBytes count number).length = count := by
  simp [beBytes]

/-- The bytes of a number determine it up to their width. -/
theorem mod_eq_of_beBytes {count first second : Nat}
    (same : beBytes count first = beBytes count second) :
    first % 256 ^ count = second % 256 ^ count := by
  induction count with
  | zero => simp [Nat.mod_one]
  | succ count ih =>
      rw [beBytes_succ, beBytes_succ, List.cons.injEq] at same
      have top := congrArg BitVec.toNat same.1
      simp only [BitVec.toNat_ofNat] at top
      rw [Nat.mod_pow_succ, Nat.mod_pow_succ, ih same.2]
      exact congrArg (second % 256 ^ count + 256 ^ count * ·) top

theorem eq_of_beBytes {count first second : Nat} (firstLt : first < 256 ^ count)
    (secondLt : second < 256 ^ count) (same : beBytes count first = beBytes count second) :
    first = second := by
  rw [← Nat.mod_eq_of_lt firstLt, ← Nat.mod_eq_of_lt secondLt]
  exact mod_eq_of_beBytes same

/-- Reading the bytes of a number gives it back, up to their width. -/
theorem foldl_beBytes (count number start : Nat) :
    (beBytes count number).foldl (fun number byte => 256 * number + byte.toNat) start =
      256 ^ count * start + number % 256 ^ count := by
  induction count generalizing start with
  | zero => simp [beBytes, Nat.mod_one]
  | succ count ih =>
      rw [beBytes_succ, List.foldl_cons, ih, BitVec.toNat_ofNat,
        @Nat.mod_pow_succ number 256 count, Nat.pow_succ]
      ring

@[simp]
theorem fromBeBytes_beBytes {count number : Nat} (fits : number < 256 ^ count) :
    fromBeBytes (beBytes count number) = number := by
  rw [fromBeBytes, foldl_beBytes, Nat.mul_zero, Nat.zero_add, Nat.mod_eq_of_lt fits]

/-- Only what fits into the width is written. -/
theorem beBytes_congr {count first second : Nat}
    (same : first % 256 ^ count = second % 256 ^ count) :
    beBytes count first = beBytes count second := by
  induction count with
  | zero => rfl
  | succ count ih =>
      rw [Nat.pow_succ] at same
      have top : first / 256 ^ count % 256 = second / 256 ^ count % 256 := by
        rw [← Nat.mod_mul_right_div_self, same, Nat.mod_mul_right_div_self]
      have rest : first % 256 ^ count = second % 256 ^ count := by
        rw [← Nat.mod_mul_right_mod first (256 ^ count) 256, same, Nat.mod_mul_right_mod]
      rw [beBytes_succ, beBytes_succ, ih rest]
      congr 1
      exact BitVec.eq_of_toNat_eq top

theorem fromBeBytes_cons (byte : BitVec 8) (rest : List (BitVec 8)) :
    fromBeBytes (byte :: rest) = 256 ^ rest.length * byte.toNat + fromBeBytes rest := by
  have general : ∀ start, rest.foldl (fun number byte => 256 * number + byte.toNat) start =
      256 ^ rest.length * start + fromBeBytes rest := by
    induction rest with
    | nil => simp [fromBeBytes]
    | cons next rest ih =>
        intro start
        rw [fromBeBytes, List.foldl_cons, List.foldl_cons, ih, ih, List.length_cons, Nat.pow_succ]
        ring
  rw [fromBeBytes, List.foldl_cons, general]
  ring

theorem fromBeBytes_lt (bytes : List (BitVec 8)) : fromBeBytes bytes < 256 ^ bytes.length := by
  induction bytes with
  | nil => exact Nat.one_pos
  | cons byte rest ih =>
      rw [fromBeBytes_cons, List.length_cons, Nat.pow_succ]
      have digit := Nat.mul_le_mul_left (256 ^ rest.length) (Nat.le_of_lt_succ byte.isLt)
      omega

/-- Writing the number that bytes stand for gives them back. -/
@[simp]
theorem beBytes_fromBeBytes {count : Nat} {bytes : List (BitVec 8)}
    (lengthEq : bytes.length = count) : beBytes count (fromBeBytes bytes) = bytes := by
  subst lengthEq
  induction bytes with
  | nil => rfl
  | cons byte rest ih =>
      have positive : 0 < 256 ^ rest.length := Nat.pow_pos (by decide)
      rw [fromBeBytes_cons, List.length_cons, beBytes_succ,
        Nat.mul_add_div positive, Nat.div_eq_of_lt (fromBeBytes_lt rest), Nat.add_zero]
      congr 1
      · exact (BitVec.ofNat_toNat 8 byte).trans (BitVec.setWidth_eq byte)
      · rw [beBytes_congr (Nat.mul_add_mod _ _ _), ih]

end Ciphera
