import ManagedSymbols.Layout.Metadata

/-!
# The forms of custom metadata

The grammar of a blob of items leaves some bytes free: those between the count and the first item, two bytes in the header of each
item, the bytes of an item behind its content, the flag bytes of a dynamic local that do not count and what stands in its name field
behind a zero unit; and any byte but zero sets a flag. `MetadataItem.BlobForm` relates a list of items to all their forms. The layout
of the items (`Layout.blob`) is one of them.
-/

namespace ManagedSymbols

open Layout

/-- A hoisted range is stored by its start and its stop, which must be a word. -/
inductive HoistedRange.Form : HoistedRange → List UInt8 → Prop where
  | pair {offset length : UInt32} (fits : offset.toNat + length.toNat < 2 ^ 32) :
      Form ⟨offset, length⟩ (word32 offset ++ word32 (offset + length))

/-- A dynamic local is stored in 200 bytes: 64 flag bytes of which a number counts, that number, the slot, and 64 units of which the
name takes those in front of a zero unit or all. -/
inductive DynamicLocal.Form : DynamicLocal → List UInt8 → Prop where
  | entry {flags unused : List UInt8} {slotIndex : UInt32} {name : String} {behind : List UInt16}
      (flagBytes : flags.length + unused.length = 64) (nulFree : NulFree name)
      (nameUnits : (Utf16.encode name.toList).length + behind.length = 64) (ended : ∀ u ∈ behind.head?, u = 0) :
      Form ⟨flags.map (· ≠ 0), slotIndex, name⟩
        (flags ++ unused ++ word32 (UInt32.ofNat flags.length) ++ word32 slotIndex ++
          units (Utf16.encode name.toList ++ behind))

namespace MetadataItem

/-- The code of an item that is understood, and its content. -/
inductive ContentForm : MetadataItem → UInt8 → List UInt8 → Prop where
  | usingInfo {counts : List UInt16} (fits : counts.length < 2 ^ 16) :
      ContentForm (.usingInfo counts) 0 (word16 (UInt16.ofNat counts.length) ++ units counts)
  | forwardInfo (token : Token) : ContentForm (.forwardInfo token) 1 (word32 token.value)
  | forwardToModuleInfo (token : Token) : ContentForm (.forwardToModuleInfo token) 2 (word32 token.value)
  | iteratorLocals {ranges : List HoistedRange} {row : List UInt8} (each : Row HoistedRange.Form ranges row) :
      ContentForm (.iteratorLocals ranges) 3 (word32 (UInt32.ofNat ranges.length) ++ row)
  | forwardIterator {className : String} (nulFree : NulFree className) :
      ContentForm (.forwardIterator className) 4 (utf16 className)
  | dynamicLocals {locals : List DynamicLocal} {row : List UInt8} (each : Row DynamicLocal.Form locals row) :
      ContentForm (.dynamicLocals locals) 5 (word32 (UInt32.ofNat locals.length) ++ row)

/-- An item with this header and this body: version, code, two bytes that mean nothing, size, body. -/
def withHeader (version code : UInt8) (free : UInt8 × UInt8) (body : List UInt8) : List UInt8 :=
  [version, code, free.1, free.2] ++ word32 (UInt32.ofNat (8 + body.length)) ++ body

/-- An item is stored with a header and a body. An item of version 4 whose code is understood has its content and any padding as its
body. Any other one is kept as skipped, whatever its body is. -/
inductive Form : MetadataItem → List UInt8 → Prop where
  | understood {item : MetadataItem} {code : UInt8} {content padding : List UInt8} (free : UInt8 × UInt8)
      (form : ContentForm item code content) (fits : 8 + (content ++ padding).length < 2 ^ 32) :
      Form item (withHeader 4 code free (content ++ padding))
  | skipped {version code : UInt8} {body : List UInt8} (free : UInt8 × UInt8) (foreign : version ≠ 4 ∨ 5 < code)
      (fits : 8 + body.length < 2 ^ 32) :
      Form (.skipped (MetadataKind.ofCode code) version (UInt32.ofNat (8 + body.length))) (withHeader version code free body)

/-- A blob is stored with its version, the number of its items, bytes that fill it up to the next multiple of four, counted from the
start of the stream, and the items. -/
inductive BlobForm (base : Nat) : List MetadataItem → List UInt8 → Prop where
  | blob {items : List MetadataItem} {filler row : List UInt8} (few : items.length ≤ 255) (short : filler.length < 4)
      (aligned : (base + 2 + filler.length) % 4 = 0) (each : Row Form items row) :
      BlobForm base items ([4, UInt8.ofNat items.length] ++ filler ++ row)

end MetadataItem

end ManagedSymbols
