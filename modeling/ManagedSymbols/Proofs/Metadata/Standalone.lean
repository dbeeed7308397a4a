import ManagedSymbols.Proofs.Reader.Moved
import ManagedSymbols.Proofs.Record.Payload

/-!
# A blob in a stream is read as the blob alone

A blob of items is read in the same way wherever it stands, if it stands at a boundary of the items: the readers of its contents
move with the bytes, and so do the ends of its items, which are counted from where an item starts (`MetadataItem.readBlob_moves`). A
vendor record has its payload read as if the stream ended with the record, so the payload is all that is left to the reader. The
items of a vendor record are therefore those of its payload alone, and a payload that cannot be read makes the record fail as it
fails alone, with the positions that the fault quotes counted from the start of the stream (`VendorPayload.read_standalone`).
-/

namespace ManagedSymbols

open Reader

variable {n : Nat}

theorem HoistedRange.read_moves : Moves n HoistedRange.read :=
  Moves.u32.bind fun _ => Moves.u32.bind fun _ => (Moves.require _ rfl).bind fun _ => Moves.pure _

theorem DynamicLocal.read_moves : Moves n DynamicLocal.read :=
  (Moves.bytes _).bind fun _ => Moves.u32.bind fun _ => (Moves.require _ rfl).bind fun _ => Moves.u32.bind fun _ =>
    (Moves.fixedUtf16 _).bind fun _ => (Moves.require _ rfl).bind fun _ => Moves.pure _

namespace MetadataItem

/-- The content of an item is read alike, whatever its kind is. -/
theorem readContent_moves (kind : MetadataKind) (version : UInt8) (length : UInt32) :
    Moves n (readContent kind version length) := by
  cases kind with
  | usingInfo => exact Moves.u16.bind fun count => (Moves.u16.times count.toNat).map _
  | forwardInfo => exact Moves.u32.map _
  | forwardToModuleInfo => exact Moves.u32.map _
  | iteratorLocals => exact Moves.u32.bind fun count => (HoistedRange.read_moves.times count.toNat).map _
  | forwardIterator => exact Moves.utf16.map _
  | dynamicLocals => exact Moves.u32.bind fun count => (DynamicLocal.read_moves.times count.toNat).map _
  | editedLocalSlots => exact Moves.pure _
  | editedLambdas => exact Moves.pure _
  | unknown code => exact Moves.pure _

/-- An item is read alike: its end moves with its start. -/
theorem read_moves : Moves n MetadataItem.read := by
  intro b b' p moved
  refine .position ?_
  refine (Moves.u8 b b' p moved).bind fun version q _ => ?_
  refine ((Moves.u8.map _) b b' q moved).bind fun kind q _ => ?_
  refine (Moves.advance 2 b b' q moved).bind fun _ q _ => ?_
  refine (Moves.u32 b b' q moved).bind fun length q _ => ?_
  refine (MovesAt.require Iff.rfl (.malformed (.itemLength p length))).bind fun _ q _ => ?_
  refine .size moved ?_
  refine (MovesAt.require (by omega) .outOfBounds).bind fun _ q _ => ?_
  have hcontent : Moves n (readVersioned kind version length) := (readContent_moves kind version length).ite (Moves.pure _)
  refine (hcontent b b' q moved).bind fun item q _ => ?_
  exact (MovesAt.seek moved (Nat.add_assoc n p _)).bind fun _ _ _ => .pure item

/-- A blob of items is read alike if it stands at the same distance from a boundary. -/
theorem readBlob_moves (aligned : itemAlignment ∣ n) : Moves n readBlob := by
  intro b b' p moved
  refine (Moves.u8 b b' p moved).bind fun version q _ => ?_
  split
  · refine (Moves.u8 b b' q moved).bind fun count q hcount => ?_
    obtain ⟨_, _, hq⟩ := of_u8 hcount
    refine (MovesAt.align moved (by decide) (by decide) aligned hq).bind fun _ q _ => ?_
    exact read_moves.times count.toNat b b' q moved
  · exact .pure []

end MetadataItem

/-- What is read as if the buffer ended earlier is what the cut buffer gives, if that is read inside the buffer. -/
theorem Reader.answer_within {α : Type} {stop p : Nat} {r : Reader α} {b : Buffer} (hstop : stop ≤ b.size) (hp : p ≤ stop)
    (hleft : (r (b.take stop) p).2 ≤ b.size) : (within stop r b p).1 = (r (b.take stop) p).1 := by
  cases hr : r (b.take stop) p with
  | mk answer q =>
    cases answer with
    | ok a =>
      rw [hr] at hleft
      rw [run_within hstop hp hr hleft]
    | error e => rw [within, if_pos ⟨hstop, hp⟩, hr]

/-- Bytes that a buffer holds up to a cut stand in the cut buffer behind those in front of them. -/
theorem Buffer.Holds.moved {b payload : Buffer} {p stop : Nat} (hb : b.Holds p payload.toList) (hstop : p + payload.size = stop) :
    Buffer.Moved p payload (b.take stop) := by
  obtain ⟨front, back, hbytes, hlength⟩ := hb
  refine ⟨front, hlength, ?_⟩
  have hcut : stop = (front ++ payload.toList).length := by
    rw [List.length_append, Buffer.length_toList, hlength, hstop]
  rw [Buffer.toList_take, hbytes, hcut, List.take_left]

namespace VendorPayload

/-- The fields of a vendor record in front of its payload: an identifier that is known, a type index and a name. -/
def namedFields (typeIndex : UInt32) (name : String) : List UInt8 :=
  Guid.managedMetadata.bytes.toList ++ Layout.word32 typeIndex ++ Layout.utf16 name

/-- The name of a payload is read behind the identifier and the type index, whatever type index it is. -/
theorem readName_reads {h : RecordHeader} {name : String} (hfix : h.fixedLayout = .ok ()) (hn : Layout.NulFree name)
    (typeIndex : UInt32) (p : Nat) : Reads p (readName h) (namedFields typeIndex name) name := by
  rw [readName, hfix, namedFields, List.append_assoc]
  refine (Reads.check p ()).bind_nil ?_
  refine ((Reads.sixteen p Guid.managedMetadata.bytes).map Guid.mk).bind ?_
  refine (Reads.u32 _ typeIndex).bind ?_
  refine (Reads.require _ _ rfl).bind_nil ?_
  exact Reads.utf16 _ hn

/-- A vendor record in a stream gives the payload of its name, read behind the name in the stream that is cut where the record ends. -/
theorem answer_of_holds {h : RecordHeader} {b : Buffer} {p : Nat} {name : String} {typeIndex : UInt32} {payload : List UInt8}
    (hfix : h.fixedLayout = .ok ()) (hn : Layout.NulFree name) (hb : b.Holds p (namedFields typeIndex name ++ payload))
    (hstop : p + (namedFields typeIndex name).length + payload.length = h.stop) :
    (read h b p).1 = (readNamed name (b.take h.stop) (p + (namedFields typeIndex name).length)).1 := by
  have hsize := hb.right.le_size
  have htake : (b.take h.stop).size = h.stop := Buffer.size_take (by omega)
  have hname := readName_reads hfix hn typeIndex p b hb.left
  rw [read_eq, run_bind_ok hname]
  refine answer_within (by omega) (by omega) ?_
  have hsafe := readNamed_safe name (b.take h.stop) (p + (namedFields typeIndex name).length) (by omega)
  exact Nat.le_trans hsafe.1 (by omega)

/-- The fields in front of a payload of items take 28 bytes, so that it starts at a boundary if its record does. -/
theorem length_namedFields (typeIndex : UInt32) : (namedFields typeIndex metadataName).length = 28 :=
  rfl

/-- What a vendor record of items in a stream gives is what its payload gives alone, with the positions of a fault moved. -/
theorem answer_eq_ofBlob {h : RecordHeader} {blob b : Buffer} {p : Nat} {typeIndex : UInt32} (hfix : h.fixedLayout = .ok ())
    (nonempty : blob.size ≠ 0) (aligned : itemAlignment ∣ p + 28)
    (hb : b.Holds p (namedFields typeIndex metadataName ++ blob.toList)) (hstop : p + 28 + blob.size = h.stop) :
    (read h b p).1 = ((MetadataItem.ofBlob blob).map metadata).mapError (Fault.moved (p + 28)) := by
  have hmoved : Buffer.Moved (p + 28) blob (b.take h.stop) := Buffer.Holds.moved hb.right hstop
  have hnamed : readNamed metadataName = metadata <$> MetadataItem.readBlob := if_pos rfl
  have hread : MovesAt (p + 28) blob (b.take h.stop) 0 (readNamed metadataName) (readNamed metadataName) := by
    rw [hnamed]
    exact (MetadataItem.readBlob_moves aligned).map metadata blob _ 0 hmoved
  rw [MovesAt, Nat.add_zero] at hread
  have hlength : p + (namedFields typeIndex metadataName).length + blob.toList.length = h.stop := by
    rw [length_namedFields, Buffer.length_toList, hstop]
  rw [answer_of_holds hfix (by decide) hb hlength, length_namedFields, hread, hnamed, run_map, MetadataItem.ofBlob, if_neg nonempty]

/-- The items of a vendor record are those of its payload alone: whatever stands in front of the record, if it ends at a boundary of
the items, and whatever stands behind it. A payload that fails alone makes the record fail in the same way; only the positions that
the fault quotes are counted from the start of the stream. -/
theorem read_standalone {blob b : Buffer} {front back : List UInt8} (typeIndex : UInt32) (nonempty : blob.size ≠ 0)
    (fits : 30 + blob.size < 2 ^ 16) (aligned : 4 ∣ front.length)
    (stream : b.toList = front ++ Layout.record .vendor (namedFields typeIndex metadataName ++ blob.toList) ++ back) :
    ∃ h : RecordHeader, h.kind = .vendor ∧ h.offset = front.length ∧ h.stop = front.length + 32 + blob.size ∧
      (∀ limit, h.stop ≤ limit → RecordHeader.frame limit b front.length = (.ok h, front.length + 4)) ∧
      (∀ items, (read h b (front.length + 4)).1 = .ok (.metadata items) ↔ MetadataItem.ofBlob blob = .ok items) ∧
      ∀ e, MetadataItem.ofBlob blob = .error e → (read h b (front.length + 4)).1 = .error (e.moved (front.length + 32)) := by
  have hholds : b.Holds front.length (Layout.record .vendor (namedFields typeIndex metadataName ++ blob.toList)) :=
    ⟨front, back, stream, rfl⟩
  have hlength : (namedFields typeIndex metadataName ++ blob.toList).length = 28 + blob.size := by
    rw [List.length_append, length_namedFields, Buffer.length_toList]
  have hfits : (namedFields typeIndex metadataName ++ blob.toList).length + 2 < 2 ^ 16 := by omega
  have hfix : (Layout.header front.length .vendor (namedFields typeIndex metadataName ++ blob.toList)).fixedLayout = .ok () :=
    RecordHeader.fixedLayout_header hfits (by rw [hlength, RecordKind.minimumLength]; omega)
  have hstop : (Layout.header front.length .vendor (namedFields typeIndex metadataName ++ blob.toList)).stop =
      front.length + 32 + blob.size := by
    show front.length + 4 + _ = _
    rw [hlength]
    omega
  have hboundary : itemAlignment ∣ front.length + 4 + 28 := by
    rw [itemAlignment]
    omega
  have hanswer := answer_eq_ofBlob hfix nonempty hboundary hholds.body (by rw [hstop])
  refine ⟨_, rfl, rfl, hstop, fun limit hlimit => RecordHeader.frame_of_holds rfl hfits hholds hlimit, fun items => ?_, ?_⟩
  · rw [hanswer]
    cases MetadataItem.ofBlob blob with
    | ok found =>
      change Except.ok (metadata found) = Except.ok (metadata items) ↔ _
      simp only [Except.ok.injEq, metadata.injEq]
    | error e =>
      change Except.error (e.moved _) = Except.ok (metadata items) ↔ _
      simp only [reduceCtorEq]
  · intro e he
    rw [hanswer, he]
    rfl

/-- A blob with one item, by the size that the item declares; it takes twelve bytes. -/
def oneItem (declared : UInt8) : Buffer where
  bytes := #[4, 1, 0, 0, 4, 1, 0, 0, declared, 0, 0, 0, 7, 0, 0, 0]
  size_lt := by
    show 16 < _
    decide

/-- A vendor record with that blob, behind four bytes and in front of one. -/
def oneItemInStream (declared : UInt8) : Buffer where
  bytes := ([1, 2, 3, 4] ++ Layout.record .vendor (namedFields 9 metadataName ++ (oneItem declared).toList) ++ [255]).toArray
  size_lt := by
    show 53 < _
    decide

/-- The item is read in the stream as it is alone, and one that is shorter than its header fails in both at the fifth byte of the
blob. -/
theorem read_standalone_sample : (oneItem 12).size ≠ 0 ∧ 30 + (oneItem 12).size < 2 ^ 16 ∧ 4 ∣ [1, 2, 3, 4].length ∧
    (∃ h : RecordHeader, h.stop = 52 ∧ (read h (oneItemInStream 12) 8).1 = .ok (.metadata [.forwardInfo ⟨7⟩])) ∧
    MetadataItem.ofBlob (oneItem 7) = .error (.malformed (.itemLength 4 7)) ∧
    ∃ h : RecordHeader, h.stop = 52 ∧ (read h (oneItemInStream 7) 8).1 = .error (.malformed (.itemLength 40 7)) := by
  have hwhole : MetadataItem.ofBlob (oneItem 12) = .ok [.forwardInfo ⟨7⟩] := rfl
  have hshort : MetadataItem.ofBlob (oneItem 7) = .error (.malformed (.itemLength 4 7)) := rfl
  have hread (declared : UInt8) := @read_standalone (oneItem declared) (oneItemInStream declared) [1, 2, 3, 4] [255] 9
    (Nat.succ_ne_zero 15) (show 46 < _ by decide) (by decide) rfl
  obtain ⟨h, _, _, hstop, _, hitems, _⟩ := hread 12
  obtain ⟨h', _, _, hstop', _, _, hfault⟩ := hread 7
  exact ⟨by decide, by decide, by decide, ⟨h, hstop, (hitems _).mpr hwhole⟩, hshort, h', hstop', hfault _ hshort⟩

end VendorPayload

end ManagedSymbols
