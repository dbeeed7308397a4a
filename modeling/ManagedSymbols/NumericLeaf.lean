import ManagedSymbols.Reader.Text
import ManagedSymbols.Real

/-!
# Numeric leaves: values in a tagged form

A value below `0x8000` is stored as a 16-bit word of its own. Any other value has a tag from `0x8000` on, which tells its form, and
then the value: integers of four widths with or without sign, two floating-point widths, a string with its length in front, and the
sixteen bytes of a decimal. Two leaves are the same value when their forms agree and their contents do; floating-point contents
agree as numbers.
-/

namespace ManagedSymbols

/-- A value with its form. -/
inductive NumericLeaf where
  | char (value : Int8)
  | short (value : Int16)
  | ushort (value : UInt16)
  | long (value : Int32)
  | ulong (value : UInt32)
  | real32 (value : Real32)
  | real64 (value : Real64)
  | quadWord (value : Int64)
  | uquadWord (value : UInt64)
  | string (value : String)
  | decimal (bytes : Vector UInt8 16)
  deriving DecidableEq, Repr

namespace NumericLeaf

/-- Whether two leaves are the same value. -/
def same : NumericLeaf → NumericLeaf → Bool
  | real32 a, real32 b => a.same b
  | real64 a, real64 b => a.same b
  | a, b => decide (a = b)

/-- The string of a leaf: a 16-bit length and so many bytes. -/
def readString (offset : Nat) : Reader NumericLeaf := do
  let length ← Reader.u16
  let found ← Reader.bytes length.toNat
  match Utf8.decode found with
  | .ok cs => return string (String.ofList cs)
  | .error fault => Reader.fail (.malformed (.leafString offset fault))

/-- The content of a leaf whose tag stands at a position and has been read. -/
def readTagged (offset : Nat) (tag : UInt16) : Reader NumericLeaf :=
  match tag with
  | 0x8000 => char <$> Reader.i8
  | 0x8001 => short <$> Reader.i16
  | 0x8002 => ushort <$> Reader.u16
  | 0x8003 => long <$> Reader.i32
  | 0x8004 => ulong <$> Reader.u32
  | 0x8005 => real32 <$> Reader.real32
  | 0x8006 => real64 <$> Reader.real64
  | 0x8009 => quadWord <$> Reader.i64
  | 0x800A => uquadWord <$> Reader.u64
  | 0x8010 => readString offset
  | 0x8019 => decimal <$> Reader.sixteen
  | tag => Reader.fail (.malformed (.leafTag tag offset))

/-- The leaf at the cursor. -/
def read : Reader NumericLeaf := do
  let offset ← Reader.position
  let tag ← Reader.u16
  if tag < 0x8000 then return ushort tag else readTagged offset tag

end NumericLeaf

end ManagedSymbols
