import ManagedSymbols.NumericLeaf
import ManagedSymbols.Token

/-!
# Constants: named compile-time values

A constant record holds the token of the constant's type, its value as a numeric leaf, and its name, which starts wherever the
leaf ends.
-/

namespace ManagedSymbols

/-- A compile-time constant. -/
structure Constant where
  typeToken : Token
  value : NumericLeaf
  name : String
  deriving DecidableEq, Repr

namespace Constant

/-- Whether two constants are the same: type, value and name. -/
def same (a b : Constant) : Bool :=
  a.typeToken == b.typeToken && a.value.same b.value && a.name == b.name

/-- The constant whose fields start at the cursor. -/
def read : Reader Constant := do
  let typeToken ← Token.mk <$> Reader.u32
  let value ← NumericLeaf.read
  let name ← Reader.utf8
  return { typeToken, value, name }

end Constant

end ManagedSymbols
