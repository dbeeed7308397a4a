import ManagedSymbols.Metadata
import ManagedSymbols.Reader.Text

/-!
# The stored form of custom metadata

A blob of items starts with a version; a version that is not understood ends it there. Otherwise a count follows, and the items
stand from the next multiple of four on. An item has a header of eight bytes (version, kind, two bytes of padding, size of the
item with its header) and a content. Wherever the content's reader stops, the next item starts where the size says.
-/

namespace ManagedSymbols

/-- The version of blobs and items that is understood. -/
def metadataVersion : UInt8 := 4

/-- The size of the header of an item. -/
def itemHeaderSize : UInt32 := 8

/-- The boundary at which the items of a blob start. -/
def itemAlignment : Nat := 4

/-- How many flag bytes a dynamic local has. -/
def dynamicFlagBytes : Nat := 64

/-- How many units the name field of a dynamic local has. -/
def dynamicNameUnits : Nat := 64

/-- The range at the cursor, stored by its start and its stop. -/
def HoistedRange.read : Reader HoistedRange := do
  let start ← Reader.u32
  let stop ← Reader.u32
  Reader.require (start ≤ stop) (.malformed (.hoistedRange start stop))
  return { offset := start, length := stop - start }

/-- The dynamic local at the cursor: a field of flag bytes, how many of them count, a slot and a field for the name. -/
def DynamicLocal.read : Reader DynamicLocal := do
  let flagBytes ← Reader.bytes dynamicFlagBytes
  let count ← Reader.u32
  Reader.require (count.toNat ≤ dynamicFlagBytes) (.malformed (.flagCount count))
  let slotIndex ← Reader.u32
  let name ← Reader.fixedUtf16 dynamicNameUnits
  Reader.require (count.toNat ≤ flagBytes.length) (.trap .slice)
  return { flags := (flagBytes.take count.toNat).map (· ≠ 0), slotIndex, name }

namespace MetadataItem

/-- The content of an item of a kind, at the cursor; `version` and `length` are kept where it is skipped. -/
def readContent (kind : MetadataKind) (version : UInt8) (length : UInt32) : Reader MetadataItem :=
  match kind with
  | .usingInfo => do
    let count ← Reader.u16
    usingInfo <$> Reader.times count.toNat Reader.u16
  | .forwardInfo => (fun value => forwardInfo ⟨value⟩) <$> Reader.u32
  | .forwardToModuleInfo => (fun value => forwardToModuleInfo ⟨value⟩) <$> Reader.u32
  | .iteratorLocals => do
    let count ← Reader.u32
    iteratorLocals <$> Reader.times count.toNat HoistedRange.read
  | .forwardIterator => forwardIterator <$> Reader.utf16
  | .dynamicLocals => do
    let count ← Reader.u32
    dynamicLocals <$> Reader.times count.toNat DynamicLocal.read
  | .editedLocalSlots | .editedLambdas | .unknown _ => return skipped kind version length

/-- The content of an item of a version, at the cursor; one of a version that is not understood is skipped. -/
def readVersioned (kind : MetadataKind) (version : UInt8) (length : UInt32) : Reader MetadataItem :=
  if version = metadataVersion then readContent kind version length else return skipped kind version length

/-- The item at the cursor, which is left where the item's size puts its end. -/
def read : Reader MetadataItem := do
  let start ← Reader.position
  let version ← Reader.u8
  let kind ← MetadataKind.ofCode <$> Reader.u8
  Reader.advance 2
  let length ← Reader.u32
  Reader.require (itemHeaderSize ≤ length) (.malformed (.itemLength start length))
  Reader.require (start + length.toNat ≤ (← Reader.size)) .outOfBounds
  let item ← readVersioned kind version length
  Reader.seek (start + length.toNat)
  return item

/-- The items of the blob at the cursor. -/
def readBlob : Reader (List MetadataItem) := do
  let version ← Reader.u8
  if version = metadataVersion then do
    let count ← Reader.u8
    Reader.align itemAlignment
    Reader.times count.toNat read
  else return []

/-- The items of a blob that stands alone, aligned from its own start; nothing at all is a blob without items. -/
def ofBlob (b : Buffer) : Except Fault (List MetadataItem) :=
  if b.size = 0 then .ok [] else (readBlob b 0).1

end MetadataItem

end ManagedSymbols
