import ManagedSymbols.Reader.Text
import ManagedSymbols.Token

/-!
# Slots: local variables of a method

A slot record holds the index of the variable, the token of the signature that types it, where its live range starts, its flags
and its name. All sixteen flag bits are kept; `SlotFlags.declared` names those that have a meaning.
-/

namespace ManagedSymbols

/-- The flags of a local variable, by their bits. -/
structure SlotFlags where
  bits : UInt16
  deriving DecidableEq, Repr

namespace SlotFlags

/-- The flags that have a meaning, each with its bit, from the lowest bit up. -/
def declared : List (String × UInt16) :=
  [("PARAM", 0x0001), ("ADDRESS_TAKEN", 0x0002), ("COMPILER_GENERATED", 0x0004), ("AGGREGATE", 0x0008),
    ("AGGREGATED", 0x0010), ("ALIASED", 0x0020), ("ALIAS", 0x0040), ("RETURN_VALUE", 0x0080),
    ("OPTIMIZED_OUT", 0x0100), ("ENREGISTERED_GLOBAL", 0x0200), ("ENREGISTERED_STATIC", 0x0400)]

/-- The names of the flags that are set. -/
def names (f : SlotFlags) : List String :=
  (declared.filter fun flag => f.bits &&& flag.2 ≠ 0).map (·.1)

/-- The bits that have a meaning. -/
def known (f : SlotFlags) : UInt16 :=
  f.bits &&& declared.foldl (fun mask flag => mask ||| flag.2) 0

end SlotFlags

/-- A local variable. -/
structure Slot where
  /-- The index of the variable in the method's local signature. -/
  index : UInt32
  /-- The token of the signature that types the variable. -/
  typeToken : Token
  /-- Where the live range of the variable starts in the code. -/
  address : UInt32
  /-- The code segment of the live range. -/
  segment : UInt16
  flags : SlotFlags
  name : String
  deriving DecidableEq, Repr

/-- The slot whose fields start at the cursor. -/
def Slot.read : Reader Slot := do
  let index ← Reader.u32
  let typeToken ← Token.mk <$> Reader.u32
  let address ← Reader.u32
  let segment ← Reader.u16
  let flags ← SlotFlags.mk <$> Reader.u16
  let name ← Reader.utf8
  return { index, typeToken, address, segment, flags, name }

end ManagedSymbols
