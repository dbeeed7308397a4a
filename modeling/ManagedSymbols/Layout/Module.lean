import ManagedSymbols.Layout.Locals
import ManagedSymbols.Layout.Metadata
import ManagedSymbols.Method.Decode

/-!
# The stored form of a module

A module is described by what its records say (`ModuleEntry`): procedures, and foreign records that are stepped over. The body of a
procedure holds entries in any order, and so does the body of a block, to any depth; vendor records stand in the body of a procedure
only. The description is laid out from a position on, because openers name the position of their terminator and metadata is aligned.
Beside the layout stands the meaning of a description: the methods it tells of, said of its entries and not of their bytes.
-/

namespace ManagedSymbols

open Layout

/-- The stored form of a record: the length of what follows it, the kind, the body. -/
def Layout.record (kind : RecordKind) (body : List UInt8) : List UInt8 :=
  word16 (UInt16.ofNat (body.length + 2)) ++ word16 kind.code ++ body

/-- The stored form of a terminator. -/
def Layout.terminator : List UInt8 :=
  record .terminator []

/-- How far the start of an opener's body lies behind its start: four bytes of framing and its fields. -/
def Layout.openerSize (fields : List UInt8) : Nat :=
  4 + fields.length

/-- One record of a body, with the records inside it if it is a block. -/
inductive Entry where
  | slot (slot : Slot)
  /-- A constant, with the bytes that store its value. -/
  | constant (constant : Constant) (value : List UInt8)
  | usingNamespace (name : String)
  /-- A record that means nothing in a body. -/
  | foreign (code : UInt16) (body : List UInt8)
  /-- A block: the fields of its record but for the terminator, its name, and its body. -/
  | block (parent length offset : UInt32) (segment : UInt16) (name : String) (entries : List Entry)

namespace Entry

/-- The fields of a block's record. -/
def blockFields (parent stop length offset : UInt32) (segment : UInt16) (name : String) : List UInt8 :=
  word32 parent ++ word32 stop ++ word32 length ++ word32 offset ++ word16 segment ++ utf8 name

mutual

/-- The stored form of an entry that starts at a position. -/
def stored (base : Nat) : Entry → List UInt8
  | slot s => record .slot s.stored
  | constant c value => record .constant (c.storedWith value)
  | usingNamespace name => record .usingNamespace (utf8 name)
  | foreign code body => record (RecordKind.ofCode code) body
  | block parent length offset segment name entries =>
    let start := base + openerSize (blockFields parent 0 length offset segment name)
    let inner := storedAll start entries
    record .block (blockFields parent (UInt32.ofNat (start + inner.length)) length offset segment name) ++ inner ++ terminator

/-- The stored form of entries that start at a position. -/
def storedAll (base : Nat) : List Entry → List UInt8
  | [] => []
  | e :: rest =>
    let found := stored base e
    found ++ storedAll (base + found.length) rest

end

/-- The slot that an entry declares. -/
def slot? : Entry → Option Slot
  | slot s => some s
  | _ => none

/-- The constant that an entry declares. -/
def constant? : Entry → Option Constant
  | constant c _ => some c
  | _ => none

/-- The namespace that an entry imports. -/
def usedNamespace? : Entry → Option String
  | usingNamespace name => some name
  | _ => none

mutual

/-- The scope that an entry opens if it is a block, in a method that starts at an address. -/
def scope? (address : UInt32) : Entry → Option Scope
  | block _ length offset segment _ entries => some {
      segment
      address := offset - address
      length
      scopes := scopes address entries
      slots := entries.filterMap slot?
      constants := entries.filterMap constant?
      usedNamespaces := entries.filterMap usedNamespace? }
  | _ => none

/-- The scopes that entries open, in order. -/
def scopes (address : UInt32) : List Entry → List Scope
  | [] => []
  | e :: rest => (scope? address e).toList ++ scopes address rest

end

mutual

/-- What an entry says of the type of the last slot: a slot has its own type, and a block that of the last slot in it, which may be
none. Any other entry says nothing. -/
def lastSlotType? : Entry → Option (Option Token)
  | slot s => some (some s.typeToken)
  | block _ _ _ _ _ entries => some (lastSlotTypeAll? entries).join
  | _ => none

/-- What entries say of the type of the last slot: the last one that says anything decides. -/
def lastSlotTypeAll? : List Entry → Option (Option Token)
  | [] => none
  | e :: rest => (lastSlotTypeAll? rest).or (lastSlotType? e)

end

mutual

/-- How deep blocks are nested in an entry. -/
def depth : Entry → Nat
  | block _ _ _ _ _ entries => depthAll entries + 1
  | _ => 0

/-- How deep blocks are nested in entries. -/
def depthAll : List Entry → Nat
  | [] => 0
  | e :: rest => max (depth e) (depthAll rest)

end

/-- Whether a kind means nothing in a body. -/
def isForeign : RecordKind → Bool
  | .block | .slot | .constant | .usingNamespace | .vendor => false
  | _ => true

mutual

/-- Whether an entry can be stored in a method that starts at an address: texts without zeros, values in one of their stored forms,
record lengths within 16 bits, blocks not in front of the method, and foreign records of a kind that means nothing. -/
def Storable (address : UInt32) : Entry → Prop
  | slot s => NulFree s.name ∧ s.stored.length + 2 < 2 ^ 16
  | constant c value => c.value.Stored value ∧ NulFree c.name ∧ (c.storedWith value).length + 2 < 2 ^ 16
  | usingNamespace name => NulFree name ∧ (utf8 name).length + 2 < 2 ^ 16
  | foreign code body => isForeign (RecordKind.ofCode code) = true ∧ body.length + 2 < 2 ^ 16
  | block parent length offset segment name entries =>
    NulFree name ∧ (blockFields parent 0 length offset segment name).length + 2 < 2 ^ 16 ∧ address ≤ offset ∧
      StorableAll address entries

/-- Whether entries can be stored. -/
def StorableAll (address : UInt32) : List Entry → Prop
  | [] => True
  | e :: rest => Storable address e ∧ StorableAll address rest

end

end Entry

/-- One record of the body of a procedure. -/
inductive ProcedureEntry where
  | entry (entry : Entry)
  | metadata (items : List StoredItem)
  | asyncMethod (info : Synchronization)

namespace ProcedureEntry

/-- The fields of a vendor record in front of its payload. -/
def vendorFields (name : String) : List UInt8 :=
  Guid.managedMetadata.bytes.toList ++ word32 0 ++ utf16 name

/-- The stored form of an entry that starts at a position. -/
def stored (base : Nat) : ProcedureEntry → List UInt8
  | entry e => e.stored base
  | metadata items =>
    let fields := vendorFields VendorPayload.metadataName
    record .vendor (fields ++ blob (base + openerSize fields) items)
  | asyncMethod info => record .vendor (vendorFields VendorPayload.asyncMethodName ++ info.stored)

/-- The stored form of entries that start at a position. -/
def storedAll (base : Nat) : List ProcedureEntry → List UInt8
  | [] => []
  | e :: rest =>
    let found := e.stored base
    found ++ storedAll (base + found.length) rest

/-- The entry of a plain body, if it is one. -/
def entry? : ProcedureEntry → Option Entry
  | entry e => some e
  | _ => none

/-- The metadata items of an entry. -/
def items : ProcedureEntry → List MetadataItem
  | metadata items => items.map StoredItem.item
  | _ => []

/-- The description of an async method that an entry holds. -/
def synchronization? : ProcedureEntry → Option Synchronization
  | asyncMethod info => some info
  | _ => none

/-- Whether an entry can be stored from a position on in a method that starts at an address. -/
def Storable (address : UInt32) (base : Nat) : ProcedureEntry → Prop
  | entry e => e.Storable address
  | metadata items =>
    items.length < 2 ^ 8 ∧ (∀ i ∈ items, i.Storable) ∧ (stored base (metadata items)).length < 2 ^ 16 + 2
  | asyncMethod info => info.points.length < 2 ^ 32 ∧ (stored base (asyncMethod info)).length < 2 ^ 16 + 2

/-- Whether entries can be stored from a position on. -/
def StorableAll (address : UInt32) (base : Nat) : List ProcedureEntry → Prop
  | [] => True
  | e :: rest => Storable address base e ∧ StorableAll address (base + (e.stored base).length) rest

/-- How deep blocks are nested in an entry. -/
def depth : ProcedureEntry → Nat
  | entry e => e.depth
  | _ => 0

end ProcedureEntry

/-- A procedure and what its body holds. -/
structure ProcedureShape where
  /-- Whether the procedure is visible outside its module. -/
  isGlobal : Bool
  length : UInt32
  debugStart : UInt32
  debugEnd : UInt32
  token : Token
  address : UInt32
  flags : ProcedureFlags
  returnRegister : UInt16
  name : String
  entries : List ProcedureEntry

namespace ProcedureShape

/-- The kind of the procedure's record. -/
def kind (p : ProcedureShape) : RecordKind :=
  if p.isGlobal then .globalProcedure else .localProcedure

/-- The fields of the procedure's record: no links, the first segment. -/
def fields (p : ProcedureShape) (stop : UInt32) : List UInt8 :=
  word32 0 ++ word32 stop ++ word32 0 ++ word32 p.length ++ word32 p.debugStart ++ word32 p.debugEnd ++
    word32 p.token.value ++ word32 p.address ++ word16 1 ++ [p.flags.bits] ++ word16 p.returnRegister ++ utf8 p.name

/-- Where the body of a procedure that starts at a position starts. -/
def bodyStart (p : ProcedureShape) (base : Nat) : Nat :=
  base + openerSize (p.fields 0)

/-- The stored form of a procedure that starts at a position. -/
def stored (p : ProcedureShape) (base : Nat) : List UInt8 :=
  let inner := ProcedureEntry.storedAll (p.bodyStart base) p.entries
  record p.kind (p.fields (UInt32.ofNat (p.bodyStart base + inner.length))) ++ inner ++ terminator

/-- What vendor records attach to a procedure: of each kind of item the last one. -/
def metadata (p : ProcedureShape) : MethodMetadata :=
  let items := p.entries.flatMap ProcedureEntry.items
  { usingCounts := (items.filterMap MetadataItem.usingCounts?).getLast?.getD []
    forwardToken := (items.filterMap MetadataItem.forwardToken?).getLast?
    forwardedModuleToken := (items.filterMap MetadataItem.forwardedModuleToken?).getLast?
    iteratorClass := (items.filterMap MetadataItem.iteratorClass?).getLast?
    iteratorRanges := (items.filterMap MetadataItem.iteratorRanges?).getLast?
    dynamicLocals := (items.filterMap MetadataItem.dynamicLocals?).getLast?.getD []
    synchronization := (p.entries.filterMap ProcedureEntry.synchronization?).getLast? }

/-- The method that a procedure tells of. It has a root scope if its body declares or imports anything itself. -/
def method (p : ProcedureShape) (moduleName : String) (options : Options) : Method :=
  let entries := p.entries.filterMap ProcedureEntry.entry?
  let slots := entries.filterMap Entry.slot?
  let constants := entries.filterMap Entry.constant?
  let usedNamespaces := entries.filterMap Entry.usedNamespace?
  let blocks := Entry.scopes p.address entries
  { token := p.token
    slotToken := (Entry.lastSlotTypeAll? entries).join
    name := if options.readNames then some p.name else none
    moduleName
    flags := p.flags
    segment := 1
    address := p.address
    length := p.length
    root :=
      if slots = [] ∧ constants = [] ∧ usedNamespaces = [] then none
      else some { segment := 1, address := 0, length := p.length, scopes := [], slots, constants, usedNamespaces }
    blocks := if options.visualBasic then Scope.widenAll blocks else blocks
    slots
    constants
    usedNamespaces
    metadata := p.metadata
    visualBasic := options.visualBasic }

/-- Whether a procedure can be stored from a position on, with blocks nested no deeper than allowed. -/
def Storable (p : ProcedureShape) (maxDepth base : Nat) : Prop :=
  NulFree p.name ∧ (p.fields 0).length + 2 < 2 ^ 16 ∧ ProcedureEntry.StorableAll p.address (p.bodyStart base) p.entries ∧
    ∀ e ∈ p.entries, e.depth ≤ maxDepth

end ProcedureShape

/-- One record of a module, with the records inside it if it is a procedure. -/
inductive ModuleEntry where
  /-- A record that is no procedure. -/
  | foreign (code : UInt16) (body : List UInt8)
  | procedure (procedure : ProcedureShape)

namespace ModuleEntry

/-- The stored form of an entry that starts at a position. -/
def stored (base : Nat) : ModuleEntry → List UInt8
  | foreign code body => record (RecordKind.ofCode code) body
  | procedure p => p.stored base

/-- The stored form of entries that start at a position. -/
def storedAll (base : Nat) : List ModuleEntry → List UInt8
  | [] => []
  | e :: rest =>
    let found := e.stored base
    found ++ storedAll (base + found.length) rest

/-- The methods that entries tell of. -/
def methods (moduleName : String) (options : Options) : List ModuleEntry → List Method
  | [] => []
  | foreign _ _ :: rest => methods moduleName options rest
  | procedure p :: rest => p.method moduleName options :: methods moduleName options rest

/-- Whether entries can be stored from a position on, with blocks nested no deeper than allowed. -/
def StorableAll (maxDepth base : Nat) : List ModuleEntry → Prop
  | [] => True
  | foreign code body :: rest =>
    (RecordKind.ofCode code).isProcedure = false ∧ body.length + 2 < 2 ^ 16 ∧
      StorableAll maxDepth (base + (stored base (foreign code body)).length) rest
  | procedure p :: rest => p.Storable maxDepth base ∧ StorableAll maxDepth (base + (p.stored base).length) rest

end ModuleEntry

end ManagedSymbols
