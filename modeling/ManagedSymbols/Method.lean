import ManagedSymbols.Metadata
import ManagedSymbols.Procedure
import ManagedSymbols.Scope
import ManagedSymbols.Synchronization

/-!
# Methods: what a procedure and its body decode to

A method keeps the header of its procedure, what its body holds and what vendor records attach to it. If the body declares slots,
constants or namespaces of its own, a root scope is made that spans the method and holds them; the blocks of the body stand beside
it, not in it. The scopes of a method are the root, if there is one, and the blocks.
-/

namespace ManagedSymbols

/-- What vendor records attach to a method. -/
structure MethodMetadata where
  /-- How many namespaces are imported at each nesting level. -/
  usingCounts : List UInt16 := []
  /-- The method whose using information holds here too. -/
  forwardToken : Option Token := none
  /-- The method whose module has the using information. -/
  forwardedModuleToken : Option Token := none
  /-- The class generated for an iterator. -/
  iteratorClass : Option String := none
  /-- The ranges of the hoisted locals of an iterator. -/
  iteratorRanges : Option (List HoistedRange) := none
  dynamicLocals : List DynamicLocal := []
  /-- The state machine of an async method. -/
  synchronization : Option Synchronization := none
  deriving DecidableEq, Repr

namespace MethodMetadata

/-- Takes in one item: it replaces what an earlier item of its kind has left, and a skipped item changes nothing. -/
def apply (m : MethodMetadata) : MetadataItem → MethodMetadata
  | .usingInfo counts => { m with usingCounts := counts }
  | .forwardInfo token => { m with forwardToken := some token }
  | .forwardToModuleInfo token => { m with forwardedModuleToken := some token }
  | .iteratorLocals ranges => { m with iteratorRanges := some ranges }
  | .forwardIterator className => { m with iteratorClass := some className }
  | .dynamicLocals locals => { m with dynamicLocals := locals }
  | .skipped .. => m

/-- Takes in items one after the other. -/
def applyAll (m : MethodMetadata) (items : List MetadataItem) : MethodMetadata :=
  items.foldl apply m

end MethodMetadata

/-- A managed method. Addresses of scopes are counted from the address of the method. -/
structure Method where
  token : Token
  /-- The type of the last slot of the body, nested blocks included. -/
  slotToken : Option Token
  /-- The name, if it was asked for. -/
  name : Option String
  /-- The name of the module that holds the method. -/
  moduleName : String
  flags : ProcedureFlags
  segment : UInt16
  address : UInt32
  length : UInt32
  /-- The scope of what the body itself declares, if it declares anything. -/
  root : Option Scope
  /-- The scopes of the blocks directly in the body. -/
  blocks : List Scope
  slots : List Slot
  constants : List Constant
  usedNamespaces : List String
  metadata : MethodMetadata
  /-- Whether the lengths of the blocks are those that Visual Basic means. -/
  visualBasic : Bool

namespace Method

/-- The outermost scopes of a method: its root, if there is one, and its blocks. -/
def scopes (m : Method) : List Scope :=
  m.root.toList ++ m.blocks

/-- All scopes of a method: parents first, siblings in order. -/
def allScopes (m : Method) : List Scope :=
  Scope.walk m.scopes

/-- The innermost scope of a method at an offset. -/
def findScope? (m : Method) (offset : UInt32) : Option Scope :=
  Scope.find? m.scopes offset

/-- The method with the lengths of its scopes as Visual Basic means them: one byte longer in every block at every depth, while the
root already spans the method. A method that has them stays as it is. -/
def forVisualBasic (m : Method) : Method :=
  if m.visualBasic then m else { m with blocks := Scope.widenAll m.blocks, visualBasic := true }

/-- A method in one line: its module and name, its token, its address and its length. -/
def text (m : Method) : String :=
  m.moduleName ++ ":" ++ m.name.getD "<unnamed>" ++ " " ++ m.token.text ++ " - " ++ hex m.address.toNat ++ " - " ++
    hex m.length.toNat

/-- Whether two methods are the same in everything they keep. -/
def same (a b : Method) : Bool :=
  a.token == b.token && a.slotToken == b.slotToken && a.name == b.name && a.moduleName == b.moduleName &&
    a.flags == b.flags && a.segment == b.segment && a.address == b.address && a.length == b.length &&
    a.root.isSome == b.root.isSome && Scope.sameAll a.scopes b.scopes && a.slots == b.slots &&
    Scope.sameList Constant.same a.constants b.constants && a.usedNamespaces == b.usedNamespaces &&
    a.metadata == b.metadata && a.visualBasic == b.visualBasic

/-! ## Order -/

/-- Methods by segment and then by address. -/
def compareAddress (a b : Method) : Ordering :=
  (compare a.segment b.segment).then (compare a.address b.address)

/-- Methods by segment, then by address, then by token. -/
def compareAddressToken (a b : Method) : Ordering :=
  (compareAddress a b).then (compare a.token b.token)

/-- Methods sorted by an order; methods that are equal in it keep their places to each other. -/
def sortBy (order : Method → Method → Ordering) (ms : List Method) : List Method :=
  ms.mergeSort fun a b => (order a b).isLE

end Method

end ManagedSymbols
