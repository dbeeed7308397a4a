import ManagedSymbols.Proofs.Layout.Method
import ManagedSymbols.Proofs.Reader.Settled
import ManagedSymbols.Proofs.Record.Safe

/-!
# The payload of a vendor record lies in its record

The identifier, the type index and the name of a vendor record are read from the whole buffer, and the payload from the buffer cut at
the end of the record. What is read from the whole buffer is settled by the bytes it takes (`VendorPayload.readName_settled`), and the
payload is looked for only if these end inside the record. So bytes behind the record have no part in a payload that is read
(`VendorPayload.read_confined`).
-/

namespace ManagedSymbols

open Reader

/-- What is read as if the buffer ended earlier is read in the cut buffer, from a position in it. -/
theorem Reader.of_within {α : Type} {stop p q : Nat} {r : Reader α} {b : Buffer} {a : α} (h : within stop r b p = (.ok a, q)) :
    stop ≤ b.size ∧ p ≤ stop ∧ r (b.take stop) p = (.ok a, q) := by
  rw [within] at h
  split at h
  · next hc =>
    refine ⟨hc.1, hc.2, ?_⟩
    cases hr : r (b.take stop) p with
    | mk answer s =>
      rw [hr] at h
      cases answer with
      | error e => cases h
      | ok found =>
        obtain ⟨_, _, hseek, hpure⟩ := exists_of_bind h
        obtain ⟨_, rfl⟩ := of_seek hseek
        obtain ⟨rfl, rfl⟩ := of_pure hpure
        rfl
  · cases h

namespace VendorPayload

/-- The fields of a vendor record in front of its payload; the last one is the name. -/
def readName (h : RecordHeader) : Reader String := do
  Reader.check h.fixedLayout
  let guid ← Reader.guid
  let typeIndex ← Reader.u32
  Reader.require (guid = Guid.managedMetadata) (.unknownVendor guid typeIndex h.offset)
  Reader.utf16

/-- A vendor record is read as its name and, inside the record, the payload of that name. -/
theorem read_eq (h : RecordHeader) : read h = readName h >>= fun name => Reader.within h.stop (readNamed name) := by
  simp only [read, readName, bind_assoc]

/-- The fields in front of a payload are settled by the bytes that they take. -/
theorem readName_settled (h : RecordHeader) : Settled (readName h) :=
  (Settled.check _).bind fun _ => Settled.guid.bind fun _ => Settled.u32.bind fun _ => (Settled.require _ _).bind fun _ =>
    Settled.utf16

/-- The name is the text behind the identifier and the type index. -/
theorem utf16_of_readName {h : RecordHeader} {b : Buffer} {p q : Nat} {name : String} (hr : readName h b p = (.ok name, q)) :
    Reader.utf16 b (p + 20) = (.ok name, q) := by
  obtain ⟨_, _, hcheck, hr⟩ := exists_of_bind hr
  obtain ⟨_, rfl⟩ := of_check hcheck
  obtain ⟨_, _, hguid, hr⟩ := exists_of_bind hr
  obtain ⟨rfl, _⟩ := Takes.sixteen.map Guid.mk _ _ _ _ hguid
  obtain ⟨_, _, htype, hr⟩ := exists_of_bind hr
  obtain ⟨rfl, _⟩ := Takes.u32 _ _ _ _ htype
  obtain ⟨_, _, hvendor, hr⟩ := exists_of_bind hr
  obtain ⟨_, rfl⟩ := of_require hvendor
  exact hr

/-- What is read of a vendor record rests on the bytes up to its end: in a buffer that has the same bytes up to there, and anything
behind, the same payload is read and the cursor is left at the same position, not behind the record. The name with its zero unit and
the payload are complete in the buffer that is cut at the end of the record. -/
theorem read_confined {h : RecordHeader} {b b' : Buffer} {p q : Nat} {payload : VendorPayload} (same : b.AgreeOn b' 0 h.stop)
    (hr : read h b p = (.ok payload, q)) :
    read h b' p = (.ok payload, q) ∧ q ≤ h.stop ∧
      ∃ name s, Reader.utf16 (b.take h.stop) (p + 20) = (.ok name, s) ∧ readNamed name (b.take h.stop) s = (.ok payload, q) := by
  rw [read_eq] at hr
  obtain ⟨name, s, hname, hpayload⟩ := exists_of_bind hr
  obtain ⟨hstop, hs, hnamed⟩ := of_within hpayload
  have hstop' : h.stop ≤ b'.size := same.le_size hstop
  have hsize : (b.take h.stop).size = h.stop := Buffer.size_take hstop
  have hq : q ≤ h.stop := by
    have hsafe := readNamed_safe name (b.take h.stop) s (by rw [hsize]; exact hs)
    rw [← hsize]
    exact (hsafe.post_of_ok hnamed).1
  refine ⟨?_, hq, name, s, ?_, hnamed⟩
  · -- The name is settled by bytes in front of `s`, which is not behind the record, and the cut buffers are equal.
    have hname' : readName h b' p = (.ok name, s) :=
      (readName_settled h b p name s hname).2 b' (Nat.le_trans hs hstop') (same.mono (Nat.zero_le p) hs)
    rw [same.take_eq] at hnamed
    rw [read_eq, run_bind_ok hname']
    exact run_within hstop' hs hnamed (Nat.le_trans hq hstop')
  · have hcut : b.AgreeOn (b.take h.stop) (p + 20) s := (Buffer.AgreeOn.take b (p + 20) h.stop).mono (Nat.le_refl _) hs
    exact (Settled.utf16 b (p + 20) name s (utf16_of_readName hname)).2 _ (by rw [hsize]; exact hs) hcut

/-- The fields of a vendor record that starts with the buffer, with one item of metadata. -/
def sampleFields : List UInt8 :=
  ProcedureEntry.vendorFields metadataName ++ Layout.blob 32 [.understood (.forwardInfo ⟨7⟩) [1]]

/-- A vendor record and one byte behind it. -/
def sampleInFront (behind : UInt8) : Buffer where
  bytes := (Layout.record .vendor sampleFields ++ [behind]).toArray
  size_lt := by
    simp only [Layout.record, sampleFields, List.size_toArray, List.length_append, List.length_singleton]
    decide

/-- The byte behind a record makes no difference to the item that is read in it. -/
theorem read_confined_sample : ∃ h : RecordHeader, h.stop = 49 ∧ (sampleInFront 0).AgreeOn (sampleInFront 255) 0 h.stop ∧
    (sampleInFront 0).toList ≠ (sampleInFront 255).toList ∧
    read h (sampleInFront 0) 4 = (.ok (.metadata [.forwardInfo ⟨7⟩]), 49) ∧
    read h (sampleInFront 255) 4 = (.ok (.metadata [.forwardInfo ⟨7⟩]), 49) := by
  have hholds (behind : UInt8) : (sampleInFront behind).Holds 0 (Layout.record .vendor sampleFields) := ⟨[], [behind], rfl, rfl⟩
  have hagree : (sampleInFront 0).AgreeOn (sampleInFront 255) 0 49 := .of_holds (hholds 0) (hholds 255)
  have hreads : Reads 4 (read ⟨.vendor, 47, 0, 49⟩) sampleFields (.metadata [.forwardInfo ⟨7⟩]) := by
    have hstorable : ∀ i ∈ [StoredItem.understood (.forwardInfo ⟨7⟩) [1]], i.Storable := by
      intro i hi
      rw [List.mem_singleton.mp hi]
      exact ⟨by decide, trivial⟩
    have hblob : Reads 32 MetadataItem.readBlob (Layout.blob 32 [.understood (.forwardInfo ⟨7⟩) [1]]) [.forwardInfo ⟨7⟩] :=
      MetadataItem.readBlob_reads 32 (by decide) hstorable
    exact reads rfl (by decide) (hblob.map metadata) (by decide)
  have hr := hreads _ (hholds 0).right
  exact ⟨⟨.vendor, 47, 0, 49⟩, rfl, hagree, by decide, hr, (read_confined hagree hr).1⟩

end VendorPayload

end ManagedSymbols
