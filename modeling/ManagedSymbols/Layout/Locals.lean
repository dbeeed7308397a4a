import Mathlib.Algebra.Group.Nat.Defs
import ManagedSymbols.Constant
import ManagedSymbols.Layout.Text
import ManagedSymbols.Slot

/-!
# The stored form of slots, values and constants

Every value has a stored form with a tag (`NumericLeaf.tagged`), and a value below `0x8000` also has a short one without
(`NumericLeaf.Stored`). Slots and constants are their fields in a row, with the name at the end.
-/

namespace ManagedSymbols

open Layout

namespace NumericLeaf

/-- The tag that tells the form of a value. -/
def tag : NumericLeaf → UInt16
  | char _ => 0x8000
  | short _ => 0x8001
  | ushort _ => 0x8002
  | long _ => 0x8003
  | ulong _ => 0x8004
  | real32 _ => 0x8005
  | real64 _ => 0x8006
  | quadWord _ => 0x8009
  | uquadWord _ => 0x800A
  | string _ => 0x8010
  | decimal _ => 0x8019

/-- The bytes behind the tag of a value. -/
def content : NumericLeaf → List UInt8
  | char n => [n.toUInt8]
  | short n => word16 n.toUInt16
  | ushort n => word16 n
  | long n => word32 n.toUInt32
  | ulong n => word32 n
  | real32 r => word32 r.bits
  | real64 r => word64 r.bits
  | quadWord n => word64 n.toUInt64
  | uquadWord n => word64 n
  | string s =>
    let found := Utf8.encode s.toList
    word16 (UInt16.ofNat found.length) ++ found
  | decimal bytes => bytes.toList

/-- Whether a value has a stored form: a string must not be longer than its length field can say. -/
def Storable : NumericLeaf → Prop
  | string s => (Utf8.encode s.toList).length < 2 ^ 16
  | _ => True

/-- The stored form of a value with its tag. -/
def tagged (v : NumericLeaf) : List UInt8 :=
  word16 v.tag ++ v.content

/-- The bytes that store a value: its tagged form, and the word alone for a value below `0x8000`. -/
inductive Stored : NumericLeaf → List UInt8 → Prop where
  | tagged {v : NumericLeaf} (storable : v.Storable) : Stored v v.tagged
  | plain {n : UInt16} (small : n < 0x8000) : Stored (ushort n) (word16 n)

end NumericLeaf

/-- The stored form of a slot. -/
def Slot.stored (s : Slot) : List UInt8 :=
  word32 s.index ++ word32 s.typeToken.value ++ word32 s.address ++ word16 s.segment ++ word16 s.flags.bits ++ utf8 s.name

/-- The stored form of a constant whose value is stored in these bytes. -/
def Constant.storedWith (value : List UInt8) (c : Constant) : List UInt8 :=
  word32 c.typeToken.value ++ value ++ utf8 c.name

end ManagedSymbols
