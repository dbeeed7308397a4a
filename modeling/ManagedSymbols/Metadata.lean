import ManagedSymbols.Token

/-!
# Custom metadata: what compilers attach to a method

A list of items is attached to a method. Each item has a kind; the kinds that are understood have contents of their own, and an
item of any other kind or of a version that is not understood is kept as skipped, with its kind, version and size.
-/

namespace ManagedSymbols

/-- What a metadata item is about. -/
inductive MetadataKind where
  /-- How many namespaces are imported at each nesting level. -/
  | usingInfo
  /-- The method whose using information holds here too. -/
  | forwardInfo
  /-- The method whose module has the using information. -/
  | forwardToModuleInfo
  /-- The ranges of the hoisted locals of an iterator. -/
  | iteratorLocals
  /-- The class generated for an iterator. -/
  | forwardIterator
  /-- Which parts of the types of locals are dynamic. -/
  | dynamicLocals
  /-- The slots of locals, kept for edits of a running program. -/
  | editedLocalSlots
  /-- The lambdas and closures, kept for edits of a running program. -/
  | editedLambdas
  /-- Any other kind, by its code. -/
  | unknown (code : UInt8)
  deriving DecidableEq, Repr

/-- The kind a code stands for. -/
def MetadataKind.ofCode (code : UInt8) : MetadataKind :=
  match code with
  | 0 => usingInfo
  | 1 => forwardInfo
  | 2 => forwardToModuleInfo
  | 3 => iteratorLocals
  | 4 => forwardIterator
  | 5 => dynamicLocals
  | 6 => editedLocalSlots
  | 7 => editedLambdas
  | other => unknown other

/-- The code of a kind. -/
def MetadataKind.code : MetadataKind → UInt8
  | usingInfo => 0
  | forwardInfo => 1
  | forwardToModuleInfo => 2
  | iteratorLocals => 3
  | forwardIterator => 4
  | dynamicLocals => 5
  | editedLocalSlots => 6
  | editedLambdas => 7
  | unknown code => code

/-- A range of code in which a hoisted local lives: where it starts and how long it is. -/
structure HoistedRange where
  offset : UInt32
  length : UInt32
  deriving DecidableEq, Repr

/-- The dynamic parts of one local's type. -/
structure DynamicLocal where
  /-- One flag for each part of the type. -/
  flags : List Bool
  /-- The slot of the local, zero for a constant. -/
  slotIndex : UInt32
  name : String
  deriving DecidableEq, Repr

/-- One item of custom metadata. -/
inductive MetadataItem where
  | usingInfo (counts : List UInt16)
  | forwardInfo (token : Token)
  | forwardToModuleInfo (token : Token)
  | iteratorLocals (ranges : List HoistedRange)
  | forwardIterator (className : String)
  | dynamicLocals (locals : List DynamicLocal)
  /-- An item whose content is not looked at; `length` is its declared size. -/
  | skipped (kind : MetadataKind) (version : UInt8) (length : UInt32)
  deriving DecidableEq, Repr

/-- The kind of an item. -/
def MetadataItem.kind : MetadataItem → MetadataKind
  | usingInfo _ => .usingInfo
  | forwardInfo _ => .forwardInfo
  | forwardToModuleInfo _ => .forwardToModuleInfo
  | iteratorLocals _ => .iteratorLocals
  | forwardIterator _ => .forwardIterator
  | dynamicLocals _ => .dynamicLocals
  | skipped kind _ _ => kind

end ManagedSymbols
