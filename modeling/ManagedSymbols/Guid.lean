import ManagedSymbols.Text.Hexadecimal

/-!
# Globally unique identifiers

An identifier is sixteen bytes. In text it has five groups of 4, 2, 2, 2 and 6 bytes; the first three groups are numbers stored
little-endian, so their bytes are shown in reverse, and the last two are shown in the order of the bytes.
-/

namespace ManagedSymbols

/-- A globally unique identifier, by its sixteen bytes in stored order. -/
structure Guid where
  bytes : Vector UInt8 16
  deriving DecidableEq, Repr

/-- The five groups of an identifier in lower-case hexadecimal, joined by hyphens. -/
def Guid.text (g : Guid) : String :=
  let group (lo hi : Nat) : List UInt8 := (g.bytes.toList.drop lo).take (hi - lo)
  "-".intercalate
    [hexBytes (group 0 4).reverse, hexBytes (group 4 6).reverse, hexBytes (group 6 8).reverse,
      hexBytes (group 8 10), hexBytes (group 10 16)]

/-- The identifier of the vendor records that carry managed custom metadata, `c6ea3fc9-59b3-49d6-bc25-0902bbabb460`. -/
def Guid.managedMetadata : Guid :=
  ⟨#v[0xC9, 0x3F, 0xEA, 0xC6, 0xB3, 0x59, 0xD6, 0x49, 0xBC, 0x25, 0x09, 0x02, 0xBB, 0xAB, 0xB4, 0x60]⟩

end ManagedSymbols
