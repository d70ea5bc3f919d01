import Mathlib.Data.Nat.Bitwise
import Mathlib.Data.ZMod.Defs
import Mathlib.Data.BitVec

/-!
# Elements and field elements

An `Element` is a 256-bit unsigned integer; a `Base` is a residue modulo the
BN254 scalar prime.  The node stores, compares and indexes elements, while the
circuits and the hash only see residues: `toBase` reduces, `fromBase` returns
the canonical representative.
-/

namespace Ciphera

/-- The order of the BN254 scalar field. -/
def modulus : Nat :=
  0x30644E72E131A029B85045B68181585D2833E84879B9709143E1F593F0000001

theorem modulus_lt_two_pow : modulus < 2 ^ 254 := by decide

/-- The modulus is not zero. -/
instance : NeZero modulus := ⟨by decide⟩

/-- The field element used by the circuits. -/
abbrev Base := Fin modulus

/-- A 256-bit unsigned integer. -/
abbrev Element := BitVec 256

namespace Element

/-- `Element::MODULUS`. -/
def MODULUS : Element := BitVec.ofNat 256 modulus

/-- `Element::ZERO`, also the null hash of an empty tree slot. -/
abbrev ZERO : Element := 0#256

/-- Reduce an element modulo the field order. -/
def toBase (element : Element) : Base := Fin.ofNat modulus element.toNat

/-- The canonical element of a residue. -/
def fromBase (base : Base) : Element := BitVec.ofNat 256 base.val

/-- The `count` least significant bits, most significant first. -/
def lsb (element : Element) (count : Nat) : List Bool :=
  (List.range count).reverse.map element.getLsbD

/-- The slot of an element in a tree with `count` levels of branching. -/
def slot (element : Element) (count : Nat) : Nat := element.toNat % 2 ^ count

@[simp]
theorem MODULUS_toNat : MODULUS.toNat = modulus := by decide

@[simp]
theorem toBase_val (element : Element) : (toBase element).val = element.toNat % modulus :=
  rfl

@[simp]
theorem fromBase_toNat (base : Base) : (fromBase base).toNat = base.val := by
  have baseLt := base.isLt
  have modulusLt := modulus_lt_two_pow
  rw [fromBase, BitVec.toNat_ofNat, Nat.mod_eq_of_lt (by omega)]

@[simp]
theorem toBase_fromBase (base : Base) : toBase (fromBase base) = base := by
  apply Fin.ext
  rw [toBase_val, fromBase_toNat, Nat.mod_eq_of_lt base.isLt]

theorem fromBase_injective : Function.Injective fromBase :=
  Function.LeftInverse.injective toBase_fromBase

/-- An element below the field order is the canonical one of its residue. -/
@[simp]
theorem fromBase_toBase {element : Element} (canonical : element.toNat < modulus) :
    fromBase (toBase element) = element := by
  apply BitVec.eq_of_toNat_eq
  rw [fromBase_toNat, toBase_val, Nat.mod_eq_of_lt canonical]

@[simp]
theorem lsb_length (element : Element) (count : Nat) : (lsb element count).length = count := by
  simp [lsb]

theorem slot_lt (element : Element) (count : Nat) : slot element count < 2 ^ count :=
  Nat.mod_lt _ (Nat.two_pow_pos count)

/-- The bit read after `index` branchings of a tree with `count` levels. -/
theorem lsb_getElem? {element : Element} {count index : Nat} (indexLt : index < count) :
    (lsb element count)[index]? = some (element.toNat.testBit (count - 1 - index)) := by
  simp [lsb, indexLt, BitVec.getLsbD]

end Element

end Ciphera
