/-!
# Options of decoding

The options say what is kept of a module and how the lengths of scopes are read; the framing of records is checked alike under all
of them.
-/

namespace ManagedSymbols

/-- What to keep of a module. -/
structure Options where
  /-- Whether the names of procedures are read; otherwise they are stepped over. -/
  readNames : Bool := true
  /-- Whether scopes are one byte longer than stored, as the Visual Basic compiler means them. -/
  visualBasic : Bool := false
  /-- How deep blocks may be nested. -/
  maxScopeDepth : Nat := 128
  deriving DecidableEq, Repr

namespace Options

/-- Everything is kept as stored. -/
def default : Options := {}

/-- The names of procedures are stepped over. -/
def namesSkipped : Options := { readNames := false }

/-- For modules compiled from Visual Basic. -/
def forVisualBasic : Options := { visualBasic := true }

end Options

end ManagedSymbols
