import ManagedSymbols.Record.Scan
import ManagedSymbols.Scope
import ManagedSymbols.Tally

/-!
# Bodies: what the records between an opener and its terminator hold

The bodies of procedures and of blocks hold the same things: nested blocks, slots, constants and imported namespaces. A body is
gathered record by record (`Body.gather`). A nested block is read as a whole by a reader that is given, and the scan goes on behind
its terminator; all other records that mean nothing here are stepped over. The type of the last slot is carried out of a body, and
that of a nested block replaces whatever was seen before it.
-/

namespace ManagedSymbols

/-- The fixed fields of a block record. -/
structure BlockRecord where
  /-- Where the enclosing procedure or block starts. -/
  parent : UInt32
  /-- Where the terminator of the block stands. -/
  stop : UInt32
  length : UInt32
  /-- Where the code of the block starts, counted from the start of the segment. -/
  offset : UInt32
  segment : UInt16
  deriving DecidableEq, Repr

/-- The block record whose fields start at the cursor; its name is stepped over. -/
def BlockRecord.read (h : RecordHeader) : Reader BlockRecord := do
  Reader.check h.fixedLayout
  let parent ← Reader.u32
  let stop ← Reader.u32
  let length ← Reader.u32
  let offset ← Reader.u32
  let segment ← Reader.u16
  Reader.skipUtf8
  return { parent, stop, length, offset, segment }

/-- A decoded block: its scope, and the type of the last slot in it. -/
structure Block where
  scope : Scope
  lastSlotType : Option Token

/-- What the records of a body hold. -/
structure Body where
  scopes : List Scope := []
  slots : List Slot := []
  constants : List Constant := []
  usedNamespaces : List String := []
  /-- The type of the last slot, those of nested blocks included. -/
  lastSlotType : Option Token := none

namespace Body

/-- A body with one more block. -/
def addBlock (body : Body) (block : Block) : Body :=
  { body with scopes := body.scopes ++ [block.scope], lastSlotType := block.lastSlotType }

/-- A body with one more slot. -/
def addSlot (body : Body) (slot : Slot) : Body :=
  { body with slots := body.slots ++ [slot], lastSlotType := some slot.typeToken }

/-- A body with one more constant. -/
def addConstant (body : Body) (constant : Constant) : Body :=
  { body with constants := body.constants ++ [constant] }

/-- A body with one more imported namespace. -/
def addNamespace (body : Body) (name : String) : Body :=
  { body with usedNamespaces := body.usedNamespaces ++ [name] }

/-- How many things of each kind a body holds. -/
def tally (body : Body) : Tally where
  scopes := body.scopes.length
  slots := body.slots.length
  constants := body.constants.length
  usedNamespaces := body.usedNamespaces.length

/-- Gathers one record of a body that ends at a limit; `readBlock` reads a nested block from behind its record. -/
def gather (readBlock : BlockRecord → Reader Block) (limit : Nat) : RecordHandler Body := fun h body =>
  match h.kind with
  | .block => do
    let record ← BlockRecord.read h
    let _ ← Reader.check (h.checkedEnd record.stop limit)
    Reader.seek h.stop
    let block ← readBlock record
    return (.jump (← Reader.position), body.addBlock block)
  | .slot => do
    Reader.check h.fixedLayout
    let slot ← Slot.read
    return (.afterRecord, body.addSlot slot)
  | .constant => do
    Reader.check h.fixedLayout
    let constant ← Constant.read
    return (.afterRecord, body.addConstant constant)
  | .usingNamespace => do
    let name ← Reader.utf8
    return (.afterRecord, body.addNamespace name)
  | _ => return (.afterRecord, body)

end Body

/-- The block of a record and the body behind it. -/
def Block.ofBody (address : UInt32) (record : BlockRecord) (body : Body) : Block where
  scope := {
    segment := record.segment
    address := record.offset - address
    length := record.length
    scopes := body.scopes
    slots := body.slots
    constants := body.constants
    usedNamespaces := body.usedNamespaces }
  lastSlotType := body.lastSlotType

/-- Reads the body of a block whose record has been read, with the cursor behind the record, and leaves the cursor behind its
terminator. `address` is where the method starts, from which the scope's own address is counted, and `depth` is how deep the block
is nested, one for a block directly in a procedure. -/
def Block.read (address : UInt32) (maxDepth depth : Nat) (record : BlockRecord) : Reader Block :=
  if _h : depth ≤ maxDepth then do
    Reader.require (address ≤ record.offset) (.malformed (.blockStart record.offset address))
    let _ ← Tally.measure record.stop.toNat
    let body ← scan record.stop.toNat (Body.gather (fun nested => do
      let _ ← Reader.fits (depth + 1)
      Block.read address maxDepth (depth + 1) nested) record.stop.toNat) {}
    expectEnd .block record.stop.toNat
    return ofBody address record body
  else Reader.fail (.recursionLimit maxDepth)
termination_by maxDepth + 1 - depth
decreasing_by omega

end ManagedSymbols
