import ManagedSymbols.Method.Decode
import ManagedSymbols.Proofs.Reader.Forward
import ManagedSymbols.Proofs.Record.Transfer

/-!
# Records are read forward

Framings, the fields of all kinds of records and the payloads of vendor records are read forward. A scan is read forward if its
handler is (`scan_forwardAt`), since no answer leads back into its record. An item of metadata puts the cursor at the end that it
declares, which is counted from its own start.
-/

namespace ManagedSymbols

open Reader

/-! ## Framings and scans -/

theorem RecordHeader.read_forward : Forward RecordHeader.read :=
  Forward.position.bind fun _ => Forward.u16.bind fun _ => Forward.position.bind fun _ => (Forward.fits _).bind fun _ =>
    Forward.u16.bind fun _ => Forward.pure _

theorem RecordHeader.frame_forward (limit : Nat) : Forward (RecordHeader.frame limit) :=
  read_forward.bind fun _ => (Forward.check _).bind fun _ => Forward.pure _

/-- The terminator that an opener declares is read forward. -/
theorem RecordHeader.declaredEnd_forward (h : RecordHeader) (limit : Nat) : Forward (h.declaredEnd limit) :=
  (Forward.check _).bind fun _ => Forward.u32.bind fun _ => Forward.u32.bind fun _ => Forward.check _

/-- The terminator of a body is read forward. -/
theorem expectEnd_forward (kind : RecordKind) (stop : Nat) : Forward (expectEnd kind stop) :=
  Forward.position.bind fun _ => (Forward.require _ _).bind fun _ => Forward.u16.bind fun _ => Forward.u16.bind fun _ =>
    Forward.require _ _

/-- A scan is read forward if its handler reads forward behind the framing of each record. -/
theorem scan_forwardAt {σ : Type} {limit lo p : Nat} {handler : RecordHandler σ} {b b' : Buffer} (agree : b.AgreeFrom b' lo)
    (handled : ∀ {h : RecordHeader} {c : Nat} (s : σ), RecordHeader.frame limit b c = (.ok h, c + 4) → lo ≤ c →
      ForwardAt lo b b' (c + 4) (handler h s)) (hp : lo ≤ p) (s : σ) :
    ForwardAt lo b b' p (scan limit handler s) := by
  have hrun : scanRun limit handler s b p = scanRun limit handler s b' p := by
    refine scanRun_transfer (fun c _ => lo ≤ c) ?_ ?_ ?_ ?_ hp
    · exact fun hc _ => ((RecordHeader.frame_forward limit).run agree hc).1
    · exact fun {_ s _} hc hf => (handled s hf hc).1
    · intro c s h q t hc step
      obtain ⟨resume, _, _, ht⟩ := step.handled
      have := RecordHeader.of_frame step.framed
      have := Resume.stop_le_target ht
      omega
    · exact fun q _ => by rw [agree.size_eq]
  refine ⟨by rw [scan, scan, hrun], fun t q hscan => ?_⟩
  have hcursor := (scanned_of_scan hscan).cursor_eq_ite
  split at hcursor <;> omega

/-! ## Fields -/

theorem Slot.read_forward : Forward Slot.read :=
  Forward.u32.bind fun _ => (Forward.u32.map _).bind fun _ => Forward.u32.bind fun _ => Forward.u16.bind fun _ =>
    (Forward.u16.map _).bind fun _ => Forward.utf8.bind fun _ => Forward.pure _

theorem NumericLeaf.readString_forward (offset : Nat) : Forward (NumericLeaf.readString offset) := by
  refine Forward.u16.bind fun length => (Forward.bytes length.toNat).bind fun found => ?_
  split
  · exact Forward.pure _
  · exact Forward.fail _

theorem NumericLeaf.readTagged_forward (offset : Nat) (tag : UInt16) : Forward (NumericLeaf.readTagged offset tag) := by
  unfold NumericLeaf.readTagged
  split
  · exact (Forward.u8.map _).map _
  · exact (Forward.u16.map _).map _
  · exact Forward.u16.map _
  · exact (Forward.u32.map _).map _
  · exact Forward.u32.map _
  · exact (Forward.u32.map _).map _
  · exact (Forward.u64.map _).map _
  · exact (Forward.u64.map _).map _
  · exact Forward.u64.map _
  · exact readString_forward offset
  · exact Forward.sixteen.map _
  · exact Forward.fail _

theorem NumericLeaf.read_forward : Forward NumericLeaf.read :=
  Forward.position.bind fun offset => Forward.u16.bind fun tag => (Forward.pure _).ite (readTagged_forward offset tag)

theorem Constant.read_forward : Forward Constant.read :=
  (Forward.u32.map _).bind fun _ => NumericLeaf.read_forward.bind fun _ => Forward.utf8.bind fun _ => Forward.pure _

theorem BlockRecord.read_forward (h : RecordHeader) : Forward (BlockRecord.read h) :=
  (Forward.check _).bind fun _ => Forward.u32.bind fun _ => Forward.u32.bind fun _ => Forward.u32.bind fun _ =>
    Forward.u32.bind fun _ => Forward.u16.bind fun _ => Forward.skipUtf8.bind fun _ => Forward.pure _

/-- The fields of a procedure are read forward, with its name or without. -/
theorem ProcedureRecord.read_forward (h : RecordHeader) (nameWanted : Bool) : Forward (ProcedureRecord.read h nameWanted) := by
  have hname : Forward (readName nameWanted) := (Forward.utf8.map _).ite (Forward.skipUtf8.map _)
  refine (Forward.check _).bind fun _ => ?_
  refine Forward.u32.bind fun _ => Forward.u32.bind fun _ => Forward.u32.bind fun _ => Forward.u32.bind fun _ => ?_
  refine Forward.u32.bind fun _ => Forward.u32.bind fun _ => (Forward.u32.map _).bind fun _ => Forward.u32.bind fun _ => ?_
  exact Forward.u16.bind fun _ => (Forward.u8.map _).bind fun _ => Forward.u16.bind fun _ => hname.bind fun _ => Forward.pure _

/-! ## Metadata -/

theorem HoistedRange.read_forward : Forward HoistedRange.read :=
  Forward.u32.bind fun _ => Forward.u32.bind fun _ => (Forward.require _ _).bind fun _ => Forward.pure _

theorem DynamicLocal.read_forward : Forward DynamicLocal.read :=
  (Forward.bytes _).bind fun _ => Forward.u32.bind fun _ => (Forward.require _ _).bind fun _ => Forward.u32.bind fun _ =>
    (Forward.fixedUtf16 _).bind fun _ => (Forward.require _ _).bind fun _ => Forward.pure _

namespace MetadataItem

theorem readContent_forward (kind : MetadataKind) (version : UInt8) (length : UInt32) :
    Forward (readContent kind version length) := by
  cases kind with
  | usingInfo => exact Forward.u16.bind fun count => (Forward.u16.times count.toNat).map _
  | forwardInfo => exact Forward.u32.map _
  | forwardToModuleInfo => exact Forward.u32.map _
  | iteratorLocals => exact Forward.u32.bind fun count => (HoistedRange.read_forward.times count.toNat).map _
  | forwardIterator => exact Forward.utf16.map _
  | dynamicLocals => exact Forward.u32.bind fun count => (DynamicLocal.read_forward.times count.toNat).map _
  | editedLocalSlots => exact Forward.pure _
  | editedLambdas => exact Forward.pure _
  | unknown code => exact Forward.pure _

/-- An item is read forward, wherever the reader of its content stops. -/
theorem read_forward : Forward MetadataItem.read := by
  intro lo b b' p agree hp
  refine (Forward.position.run agree hp).bind fun start q hposition hq => ?_
  cases hposition
  refine (Forward.u8.run agree hq).bind fun version q _ hq => ?_
  refine ((Forward.u8.map _).run agree hq).bind fun kind q _ hq => ?_
  refine ((Forward.advance 2).run agree hq).bind fun _ q _ hq => ?_
  refine (Forward.u32.run agree hq).bind fun length q _ hq => ?_
  refine ((Forward.require _ _).run agree hq).bind fun _ q _ hq => ?_
  refine (Forward.size.run agree hq).bind fun _ q _ hq => ?_
  refine ((Forward.require _ _).run agree hq).bind fun _ q _ hq => ?_
  have hcontent : Forward (readVersioned kind version length) := (readContent_forward kind version length).ite (Forward.pure _)
  refine (hcontent.run agree hq).bind fun item q _ hq => ?_
  exact (ForwardAt.seek agree (Nat.le_add_right_of_le hp)).bind fun _ q _ hq => .pure hq item

theorem readBlob_forward : Forward readBlob :=
  Forward.u8.bind fun _ => (Forward.u8.bind fun count => (Forward.align _).bind fun _ => read_forward.times count.toNat).ite
    (Forward.pure _)

end MetadataItem

theorem SuspensionPoint.read_forward : Forward SuspensionPoint.read :=
  Forward.u32.bind fun _ => (Forward.u32.map _).bind fun _ => Forward.u32.bind fun _ => Forward.pure _

theorem Synchronization.read_forward : Forward Synchronization.read :=
  (Forward.u32.map _).bind fun _ => Forward.u32.bind fun _ => Forward.u32.bind fun count =>
    (SuspensionPoint.read_forward.times count.toNat).bind fun _ => Forward.pure _

/-- What is read forward is read forward as if the buffer ended earlier. -/
theorem Reader.Forward.within {α : Type} {r : Reader α} (h : Forward r) (stop : Nat) : Forward (Reader.within stop r) := by
  intro lo b b' p agree hp
  rw [ForwardAt, Reader.within, Reader.within, ← agree.size_eq]
  split
  · next hc =>
    have hsize := Buffer.size_take hc.1
    have hsize' := Buffer.size_take (agree.size_eq ▸ hc.1)
    have hcut : (b.take stop).AgreeFrom (b'.take stop) lo :=
      ⟨by omega, hsize.trans hsize'.symm, (agree.agree.mono (Nat.le_refl lo) (by omega)).take_take stop⟩
    obtain ⟨heq, hbehind⟩ := h.run hcut hp
    rw [← heq]
    cases hr : r (b.take stop) p with
    | mk answer q =>
      cases answer with
      | ok a => exact (ForwardAt.seek agree (hbehind a q hr)).bind fun _ _ _ hq => .pure hq a
      | error e =>
        refine ⟨rfl, fun a s ha => ?_⟩
        cases ha
  · refine ⟨rfl, fun a s ha => ?_⟩
    cases ha

theorem VendorPayload.readNamed_forward (name : String) : Forward (readNamed name) :=
  (MetadataItem.readBlob_forward.map _).ite ((Synchronization.read_forward.map _).ite (Forward.pure _))

theorem VendorPayload.read_forward (h : RecordHeader) : Forward (VendorPayload.read h) := by
  refine (Forward.check _).bind fun _ => Forward.guid.bind fun _ => Forward.u32.bind fun _ => ?_
  exact (Forward.require _ _).bind fun _ => Forward.utf16.bind fun name => (readNamed_forward name).within h.stop

end ManagedSymbols
