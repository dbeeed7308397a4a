import Mathlib.Algebra.Group.Nat.Defs
import ManagedSymbols.Layout.Text
import ManagedSymbols.Metadata.Blob
import ManagedSymbols.Synchronization

/-!
# The stored form of custom metadata

A blob of items is described by its items as they are stored (`StoredItem`): an item that is understood may be followed by bytes
that mean nothing, and an item that is skipped has any content. The blob is laid out from a position on, since its items start at a
multiple of four counted from the start of the stream.
-/

namespace ManagedSymbols

open Layout

/-- The stored form of a hoisted range, by its start and its stop. -/
def HoistedRange.stored (r : HoistedRange) : List UInt8 :=
  word32 r.offset ++ word32 (r.offset + r.length)

/-- The stored form of a dynamic local. -/
def DynamicLocal.stored (d : DynamicLocal) : List UInt8 :=
  d.flags.map (fun flag => if flag then 1 else 0) ++ List.replicate (dynamicFlagBytes - d.flags.length) 0 ++
    word32 (UInt32.ofNat d.flags.length) ++ word32 d.slotIndex ++ utf16Field dynamicNameUnits d.name

/-- The stored form of a count of 32 bits and what is counted. -/
def Layout.counted {α : Type} (stored : α → List UInt8) (xs : List α) : List UInt8 :=
  word32 (UInt32.ofNat xs.length) ++ xs.flatMap stored

/-- The stored form of the content of an item that is understood; a skipped one has none of its own. -/
def MetadataItem.content : MetadataItem → List UInt8
  | usingInfo counts => word16 (UInt16.ofNat counts.length) ++ units counts
  | forwardInfo token | forwardToModuleInfo token => word32 token.value
  | iteratorLocals ranges => counted HoistedRange.stored ranges
  | forwardIterator className => utf16 className
  | dynamicLocals locals => counted DynamicLocal.stored locals
  | skipped .. => []

/-- What the stored form of an item can say: counts within their fields, ranges within 32 bits, names without zeros and within
their fields. -/
def MetadataItem.Storable : MetadataItem → Prop
  | usingInfo counts => counts.length < 2 ^ 16
  | forwardInfo _ | forwardToModuleInfo _ => True
  | iteratorLocals ranges =>
    ranges.length < 2 ^ 32 ∧ ∀ r ∈ ranges, r.offset.toNat + r.length.toNat < 2 ^ 32
  | forwardIterator className => NulFree className
  | dynamicLocals locals =>
    locals.length < 2 ^ 32 ∧ ∀ d ∈ locals, d.flags.length ≤ dynamicFlagBytes ∧ NulFree d.name ∧
      (Utf16.encode d.name.toList).length ≤ dynamicNameUnits
  | skipped .. => False

/-- The using counts that an item holds. -/
def MetadataItem.usingCounts? : MetadataItem → Option (List UInt16)
  | usingInfo counts => some counts
  | _ => none

/-- The method whose using information an item says to hold too. -/
def MetadataItem.forwardToken? : MetadataItem → Option Token
  | forwardInfo token => some token
  | _ => none

/-- The method whose module an item says to have the using information. -/
def MetadataItem.forwardedModuleToken? : MetadataItem → Option Token
  | forwardToModuleInfo token => some token
  | _ => none

/-- The ranges of hoisted locals that an item holds. -/
def MetadataItem.iteratorRanges? : MetadataItem → Option (List HoistedRange)
  | iteratorLocals ranges => some ranges
  | _ => none

/-- The class of an iterator that an item names. -/
def MetadataItem.iteratorClass? : MetadataItem → Option String
  | forwardIterator className => some className
  | _ => none

/-- The dynamic locals that an item holds. -/
def MetadataItem.dynamicLocals? : MetadataItem → Option (List DynamicLocal)
  | dynamicLocals locals => some locals
  | _ => none

/-- Whether the content of an item of a kind is looked at. -/
def MetadataKind.isUnderstood : MetadataKind → Bool
  | editedLocalSlots | editedLambdas | unknown _ => false
  | _ => true

/-- An item as it is stored. -/
inductive StoredItem where
  /-- An item that is understood, and bytes behind its content that belong to it and mean nothing. -/
  | understood (item : MetadataItem) (padding : List UInt8)
  /-- An item that is skipped, with its content. -/
  | skipped (code version : UInt8) (content : List UInt8)
  deriving DecidableEq, Repr

namespace StoredItem

/-- The bytes behind the header of an item. -/
def body : StoredItem → List UInt8
  | understood item padding => item.content ++ padding
  | skipped _ _ content => content

/-- The size of an item, its header included. -/
def size (i : StoredItem) : Nat :=
  itemHeaderSize.toNat + i.body.length

/-- The item that is read back. -/
def item : StoredItem → MetadataItem
  | understood item _ => item
  | skipped code version content =>
    .skipped (MetadataKind.ofCode code) version (UInt32.ofNat (itemHeaderSize.toNat + content.length))

/-- Whether an item can be stored: what is understood says no more than its fields can hold, what is skipped is of a version or a
kind that is not understood, and the size fits its field. -/
def Storable (i : StoredItem) : Prop :=
  i.size < 2 ^ 32 ∧
    match i with
    | understood item _ => item.Storable
    | skipped code version _ => version ≠ metadataVersion ∨ (MetadataKind.ofCode code).isUnderstood = false

/-- The version and the kind in the header of an item. -/
def header : StoredItem → UInt8 × UInt8
  | understood item _ => (metadataVersion, item.kind.code)
  | skipped code version _ => (version, code)

/-- The stored form of an item: version, kind, two bytes of padding, size, content. -/
def stored (i : StoredItem) : List UInt8 :=
  [i.header.1, i.header.2, 0, 0] ++ word32 (UInt32.ofNat i.size) ++ i.body

end StoredItem

/-- How many bytes lie between a position and the next multiple of an alignment. -/
def Layout.gap (alignment position : Nat) : Nat :=
  (alignment - position % alignment) % alignment

/-- The stored form of a blob of items that starts at a position. -/
def Layout.blob (base : Nat) (items : List StoredItem) : List UInt8 :=
  [metadataVersion, UInt8.ofNat items.length] ++ List.replicate (gap itemAlignment (base + 2)) 0 ++
    items.flatMap StoredItem.stored

/-- The stored form of a suspension point. -/
def SuspensionPoint.stored (p : SuspensionPoint) : List UInt8 :=
  word32 p.yieldOffset ++ word32 p.resumeMethod.value ++ word32 p.resumeOffset

/-- The stored form of the description of an async method. -/
def Synchronization.stored (s : Synchronization) : List UInt8 :=
  word32 s.kickoffMethod.value ++ word32 s.catchHandlerOffset ++ counted SuspensionPoint.stored s.points

end ManagedSymbols
