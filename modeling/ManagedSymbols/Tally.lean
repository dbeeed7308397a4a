import ManagedSymbols.Record.Scan

/-!
# Measuring a body before it is read

The body of a procedure or a block is walked once before anything in it is read. The tally counts the records it holds directly: a
nested block counts as one, and the walk goes on at the terminator the block declares. The cursor is put back in every outcome.
-/

namespace ManagedSymbols

/-- How many records of each kind a body holds directly. -/
structure Tally where
  scopes : Nat := 0
  slots : Nat := 0
  constants : Nat := 0
  usedNamespaces : Nat := 0
  deriving DecidableEq, Repr

namespace Tally

/-- Whether a body has slots, constants or namespaces of its own. -/
def hasLocals (t : Tally) : Bool :=
  t.slots > 0 || t.constants > 0 || t.usedNamespaces > 0

/-- Counts one record of a body; a block is stepped over up to its terminator. -/
def count (limit : Nat) : RecordHandler Tally := fun h t =>
  match h.kind with
  | .block => do
    let stop ← h.declaredEnd limit
    let scopes ← Reader.fits (t.scopes + 1)
    return (.jump stop, { t with scopes })
  | .slot => do
    let slots ← Reader.fits (t.slots + 1)
    return (.afterRecord, { t with slots })
  | .constant => do
    let constants ← Reader.fits (t.constants + 1)
    return (.afterRecord, { t with constants })
  | .usingNamespace => do
    let usedNamespaces ← Reader.fits (t.usedNamespaces + 1)
    return (.afterRecord, { t with usedNamespaces })
  | _ => return (.afterRecord, t)

/-- The tally of the records from the cursor to the limit; the cursor stays. -/
def measure (limit : Nat) : Reader Tally :=
  Reader.restoring (scan limit (count limit) {})

end Tally

end ManagedSymbols
