import ManagedSymbols.Method.Decode

/-!
# The symbols of a module

The symbols of a module are the records from the cursor to a limit. They are walked twice: once to count the procedures, going from
each one to its terminator (`ModuleSymbols.countProcedures`), and once more from the start to decode them (`ModuleSymbols.read`). A
module without procedures is told apart from the first walk and is not walked again.
-/

namespace ManagedSymbols

namespace ModuleSymbols

/-- Counts one record of a module if it is a procedure, which is stepped over up to its terminator. -/
def countProcedure (limit : Nat) : RecordHandler Nat := fun h count =>
  if h.kind.isProcedure then do
    let stop ← h.declaredEnd limit
    let count ← Reader.fits (count + 1)
    return (.jump stop, count)
  else return (.afterRecord, count)

/-- How many procedures stand between the cursor and the limit. -/
def countProcedures (limit : Nat) : Reader Nat :=
  scan limit (countProcedure limit) 0

/-- Decodes one record of a module if it is a procedure, with the body behind it. -/
def gather (moduleName : String) (limit : Nat) (options : Options) : RecordHandler (List Method) := fun h methods =>
  if h.kind.isProcedure then do
    let record ← ProcedureRecord.read h options.readNames
    let _ ← Reader.check (h.checkedEnd record.stop limit)
    Reader.seek h.stop
    let method ← Method.read moduleName options h record
    return (.jump (← Reader.position), methods ++ [method])
  else return (.afterRecord, methods)

/-- The methods between the cursor and the limit, in the order of the stream; nothing if there is no procedure. -/
def read (moduleName : String) (limit : Nat) (options : Options) : Reader (Option (List Method)) := do
  let start ← Reader.position
  let count ← countProcedures limit
  if count = 0 then return none
  else do
    Reader.seek start
    let methods ← scan limit (gather moduleName limit options) []
    return some methods

end ModuleSymbols

end ManagedSymbols
