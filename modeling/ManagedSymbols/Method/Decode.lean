import ManagedSymbols.Body
import ManagedSymbols.Method
import ManagedSymbols.Options
import ManagedSymbols.VendorRecord

/-!
# Decoding a method

A method is decoded from the records between its procedure record and its terminator (`Method.read`): the header is checked, the
body is measured and then gathered, with vendor records taken in as they come, and the terminator is consumed. What the body
declares itself becomes the root scope exactly when the measure finds any of it.
-/

namespace ManagedSymbols

/-- What the body of a method holds, with the metadata attached to it. -/
structure MethodBody where
  body : Body := {}
  metadata : MethodMetadata := {}

namespace MethodBody

/-- Takes in the payload of a vendor record. -/
def applyPayload (m : MethodBody) : VendorPayload → MethodBody
  | .metadata items => { m with metadata := m.metadata.applyAll items }
  | .asyncMethod info => { m with metadata := { m.metadata with synchronization := some info } }
  | .other _ => m

/-- Gathers one record of the body of a method: a vendor record is taken in, and every other one is gathered as in any body. -/
def gather (readBlock : BlockRecord → Reader Block) (limit : Nat) : RecordHandler MethodBody := fun h m =>
  match h.kind with
  | .vendor => do
    let payload ← VendorPayload.read h
    return (.afterRecord, m.applyPayload payload)
  | _ => do
    let (resume, body) ← Body.gather readBlock limit h m.body
    return (resume, { m with body })

end MethodBody

namespace Method

/-- A procedure must lie in the first segment and be linked to no other record. -/
def checkRecord (h : RecordHeader) (record : ProcedureRecord) : Except Fault Unit :=
  if record.segment ≠ 1 then .error (.invalidSegment record.segment h.offset)
  else if record.parent ≠ 0 ∨ record.next ≠ 0 then .error (.unexpectedLink record.parent record.next h.offset)
  else .ok ()

/-- The method of a procedure record and the body behind it; `hasRoot` says whether the body declares anything itself. -/
def ofBody (moduleName : String) (record : ProcedureRecord) (hasRoot : Bool) (m : MethodBody) : Method where
  token := record.token
  slotToken := m.body.lastSlotType
  name := record.name
  moduleName := moduleName
  flags := record.flags
  segment := record.segment
  address := record.offset
  length := record.length
  root :=
    if hasRoot then
      some {
        segment := record.segment
        address := 0
        length := record.length
        scopes := []
        slots := m.body.slots
        constants := m.body.constants
        usedNamespaces := m.body.usedNamespaces }
    else none
  blocks := m.body.scopes
  slots := m.body.slots
  constants := m.body.constants
  usedNamespaces := m.body.usedNamespaces
  metadata := m.metadata
  visualBasic := false

/-- Reads the body of a procedure whose record has been read, with the cursor behind the record, and leaves the cursor behind its
terminator. -/
def read (moduleName : String) (options : Options) (h : RecordHeader) (record : ProcedureRecord) : Reader Method := do
  Reader.check (checkRecord h record)
  let limit ← Reader.check (h.checkedEnd record.stop (← Reader.size))
  let tally ← Tally.measure limit
  let m ← scan limit (MethodBody.gather (Block.read record.offset options.maxScopeDepth 1) limit) {}
  expectEnd h.kind limit
  let method := ofBody moduleName record tally.hasLocals m
  return if options.visualBasic then method.forVisualBasic else method

end Method

end ManagedSymbols
