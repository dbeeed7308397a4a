import ManagedSymbols.Reader

/-!
# Floating-point numbers by their bits

A floating-point number is kept as the bits it is stored in, so that every NaN and both zeros stay apart. As numbers they are
compared by `same`: no NaN is the same as anything, itself included, and the two zeros are the same.
-/

namespace ManagedSymbols

/-- A 32-bit floating-point number, by its bits. -/
structure Real32 where
  bits : UInt32
  deriving DecidableEq, Repr

namespace Real32

/-- Whether the bits stand for no number: the exponent is full and the fraction is not empty. -/
def isNaN (r : Real32) : Bool :=
  0x7F800000 < r.bits &&& 0x7FFFFFFF

/-- Whether the bits stand for zero, of either sign. -/
def isZero (r : Real32) : Bool :=
  r.bits &&& 0x7FFFFFFF == 0

/-- Whether two words stand for the same number. -/
def same (a b : Real32) : Bool :=
  !a.isNaN && !b.isNaN && (a == b || (a.isZero && b.isZero))

end Real32

/-- A 64-bit floating-point number, by its bits. -/
structure Real64 where
  bits : UInt64
  deriving DecidableEq, Repr

namespace Real64

/-- Whether the bits stand for no number: the exponent is full and the fraction is not empty. -/
def isNaN (r : Real64) : Bool :=
  0x7FF0000000000000 < r.bits &&& 0x7FFFFFFFFFFFFFFF

/-- Whether the bits stand for zero, of either sign. -/
def isZero (r : Real64) : Bool :=
  r.bits &&& 0x7FFFFFFFFFFFFFFF == 0

/-- Whether two words stand for the same number. -/
def same (a b : Real64) : Bool :=
  !a.isNaN && !b.isNaN && (a == b || (a.isZero && b.isZero))

end Real64

namespace Reader

/-- The next 32-bit floating-point number. -/
def real32 : Reader Real32 :=
  Real32.mk <$> u32

/-- The next 64-bit floating-point number. -/
def real64 : Reader Real64 :=
  Real64.mk <$> u64

end Reader

end ManagedSymbols
