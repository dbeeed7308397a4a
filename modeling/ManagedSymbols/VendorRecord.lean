import ManagedSymbols.Metadata.Blob
import ManagedSymbols.Record
import ManagedSymbols.Synchronization

/-!
# Vendor records: custom metadata among the records of a method

A vendor record holds an identifier, a type index, the name of its payload and the payload. Only the identifier of managed
metadata is known, and any other one is a fault. The payload is read from the buffer as if it ended with the record, so that no
payload takes bytes from behind it; a payload whose name is not known is only named.
-/

namespace ManagedSymbols

/-- What a vendor record attaches to its method. -/
inductive VendorPayload where
  | metadata (items : List MetadataItem)
  | asyncMethod (info : Synchronization)
  /-- A payload that is not understood, by its name. -/
  | other (name : String)
  deriving DecidableEq, Repr

/-- Runs a reader as if the buffer ended at a position; the cursor goes on where the reader stopped. -/
def Reader.within {α : Type} (stop : Nat) (r : Reader α) : Reader α := fun b p =>
  if stop ≤ b.size ∧ p ≤ stop then
    match r (b.take stop) p with
    | (.ok a, q) => (Reader.seek q >>= fun _ => pure a) b p
    | (.error e, _) => (.error e, p)
  else (.error .outOfBounds, p)

/-- What is read in the cut buffer is read as if the buffer ended there. -/
theorem Reader.run_within {α : Type} {stop p q : Nat} {r : Reader α} {b : Buffer} {a : α} (hstop : stop ≤ b.size) (hp : p ≤ stop)
    (hr : r (b.take stop) p = (.ok a, q)) (hq : q ≤ b.size) : within stop r b p = (.ok a, q) := by
  have hseek : seek q b p = (.ok (), q) := by rw [run_seek, if_pos hq]
  rw [within, if_pos ⟨hstop, hp⟩, hr]
  exact run_bind_ok hseek _

namespace VendorPayload

/-- The name of a payload of metadata items. -/
def metadataName : String := "MD2"

/-- The name of a payload that describes an async method. -/
def asyncMethodName : String := "asyncMethodInfo"

/-- The payload of a name, at the cursor. -/
def readNamed (name : String) : Reader VendorPayload :=
  if name = metadataName then metadata <$> MetadataItem.readBlob
  else if name = asyncMethodName then asyncMethod <$> Synchronization.read
  else return other name

/-- The payload of a vendor record whose fields start at the cursor. -/
def read (h : RecordHeader) : Reader VendorPayload := do
  Reader.check h.fixedLayout
  let guid ← Reader.guid
  let typeIndex ← Reader.u32
  Reader.require (guid = Guid.managedMetadata) (.unknownVendor guid typeIndex h.offset)
  let name ← Reader.utf16
  Reader.within h.stop (readNamed name)

end VendorPayload

end ManagedSymbols
