import ManagedSymbols.Method.Decode
import ManagedSymbols.Proofs.Body.Steps
import ManagedSymbols.Proofs.Reader.Safe

/-!
# Safe records

Framings, the fields of all kinds of records and the payloads of vendor records are read safely from any position of any buffer. A
scan is safe if its handler is (`scan_safeAt`), and what the handler keeps up with the position holds at its end.
-/

namespace ManagedSymbols

open Reader

/-! ## Faults of framing -/

/-- A record that is too short is a fault of the data. -/
theorem RecordHeader.ofData_of_fixedLayout {h : RecordHeader} (e : Fault) (hfix : h.fixedLayout = .error e) : e.OfData := by
  unfold fixedLayout at hfix
  split at hfix
  · cases hfix
    trivial
  · cases hfix

/-- A terminator that is not accepted is a fault of the data. -/
theorem RecordHeader.ofData_of_checkedEnd {h : RecordHeader} {stop : UInt32} {limit : Nat} (e : Fault)
    (hc : h.checkedEnd stop limit = .error e) : e.OfData := by
  unfold checkedEnd at hc
  split at hc
  · cases hc
    trivial
  · split at hc
    · cases hc
      trivial
    · cases hc

/-- A record that leaves its range or does not hold its kind is a fault of the data. -/
theorem RecordHeader.ofData_of_checkFrame {h : RecordHeader} {limit : Nat} (e : Fault) (hc : h.checkFrame limit = .error e) :
    e.OfData := by
  unfold checkFrame at hc
  split at hc
  · cases hc
    trivial
  · split at hc
    · exact ofData_of_fixedLayout e hc
    · cases hc

/-- An answer that leads nowhere is a fault of the data. -/
theorem Resume.ofData_of_target {h : RecordHeader} {limit : Nat} {resume : Resume} {e : Fault}
    (ht : resume.target h limit = .error e) : e.OfData := by
  cases resume with
  | afterRecord => cases ht
  | jump target =>
    simp only [Resume.target] at ht
    split at ht
    · cases ht
      trivial
    · split at ht
      · cases ht
        trivial
      · cases ht

/-! ## Framings -/

/-- A framing is read safely: the end of the record is a word, since the length is one of 16 bits. -/
theorem RecordHeader.read_safe : Safe RecordHeader.read := by
  intro b p hp
  refine (Safe.position b p hp).bind fun offset q hq _ => ?_
  refine (Safe.u16 b q hq).bind fun length q hq _ => ?_
  refine (SafeAt.position hq).bind ?_
  rintro _ _ - ⟨rfl, rfl⟩
  have hsize := b.size_lt
  have hlength := length.toNat_lt
  rw [Buffer.size] at hq
  refine (SafeAt.fits (by omega) hq).bind fun _ q hq _ => ?_
  exact ((Safe.u16.bind fun _ => Safe.pure _) b q hq)

theorem RecordHeader.frame_safe (limit : Nat) : Safe (RecordHeader.frame limit) :=
  read_safe.bind fun _ => (Safe.check ofData_of_checkFrame).bind fun _ => Safe.pure _

/-- The terminator is read safely from the front of an opener's fields. -/
theorem RecordHeader.declaredEnd_safe (h : RecordHeader) (limit : Nat) : Safe (h.declaredEnd limit) :=
  (Safe.check ofData_of_fixedLayout).bind fun _ => Safe.u32.bind fun _ => Safe.u32.bind fun _ =>
    Safe.check ofData_of_checkedEnd

/-- A body that has stopped at its terminator is left safely. -/
theorem expectEnd_safeAt {b : Buffer} {stop : Nat} (kind : RecordKind) (hstop : stop ≤ b.size) :
    SafeAt b stop (expectEnd kind stop) fun _ _ => True := by
  refine (SafeAt.position hstop).bind ?_
  rintro _ _ hq ⟨rfl, rfl⟩
  refine (SafeAt.require_of rfl hq).bind ?_
  rintro _ _ hq rfl
  exact (Safe.u16.bind fun _ => Safe.u16.bind fun _ => Safe.require (e := .missingEnd _ _) _ trivial) b _ hq

/-! ## Scans -/

/-- A scan is safe if its handler is. What holds of the position and the state at the start, and with each record wherever the scan
goes on, holds at the end, which is the limit unless the scan starts behind it. -/
theorem scan_safeAt {σ : Type} {limit : Nat} {handler : RecordHandler σ} {b : Buffer} {p : Nat} {s : σ}
    {invariant : Nat → σ → Prop}
    (handled : ∀ {h : RecordHeader} {c : Nat} {s : σ}, RecordHeader.frame limit b c = (.ok h, c + 4) → invariant c s →
      SafeAt b (c + 4) (handler h s) fun found _ => ∀ q, found.1.target h limit = .ok q → invariant q found.2)
    (hp : p ≤ b.size) (hs : invariant p s) :
    SafeAt b p (scan limit handler s) fun t q => invariant q t ∧ q = if p ≤ limit then limit else p := by
  -- Wherever the handler leaves the cursor, the scan goes on at the target of its answer, where the invariant holds.
  have hrun : SafeAt b p (scan limit handler s) fun t q => invariant q t := by
    unfold SafeAt scan
    fun_induction scanRun limit handler s b p with
    | case1 s p _ e q hf => exact (RecordHeader.frame_safe limit b p hp).ofData_of_error hf
    | case2 s p _ h q hf e r hh =>
      obtain ⟨_, _, _, _, rfl, _⟩ := RecordHeader.of_frame hf
      exact (handled hf hs).ofData_of_error hh
    | case3 s p _ h q hf resume t r hh e ht =>
      obtain ⟨_, _, _, _, rfl, _⟩ := RecordHeader.of_frame hf
      exact ⟨((handled hf hs).post_of_ok hh).1, Resume.ofData_of_target ht⟩
    | case4 s p _ h q hf resume t r hh target ht _ _ hland ih =>
      obtain ⟨_, _, _, _, rfl, _⟩ := RecordHeader.of_frame hf
      exact ih hland (((handled hf hs).post_of_ok hh).2 target ht)
    | case5 s p _ h q hf resume t r hh target ht _ _ hland =>
      obtain ⟨_, _, _, _, rfl, _⟩ := RecordHeader.of_frame hf
      exact ⟨((handled hf hs).post_of_ok hh).1, trivial⟩
    | case6 s p _ => exact ⟨hp, hs⟩
  cases hscan : scan limit handler s b p with
  | mk answer q =>
    cases answer with
    | ok t =>
      obtain ⟨hq, ht⟩ := hrun.post_of_ok hscan
      exact .of_ok hscan hq ⟨ht, (scanned_of_scan hscan).cursor_eq_ite⟩
    | error e =>
      obtain ⟨hq, he⟩ := hrun.ofData_of_error hscan
      exact .of_error hscan hq he

/-- A scan is safe if its handler is, from the start of the scan on. -/
theorem scan_safeAt_of_handler {σ : Type} {limit : Nat} {handler : RecordHandler σ} {b : Buffer} {p : Nat} {s : σ}
    (handled : ∀ {h : RecordHeader} {c : Nat} {s : σ}, RecordHeader.frame limit b c = (.ok h, c + 4) → p ≤ c →
      SafeAt b (c + 4) (handler h s) fun _ _ => True) (hp : p ≤ b.size) :
    SafeAt b p (scan limit handler s) fun _ q => q = if p ≤ limit then limit else p := by
  have hbehind : ∀ {h : RecordHeader} {c : Nat} {s : σ}, RecordHeader.frame limit b c = (.ok h, c + 4) → p ≤ c →
      SafeAt b (c + 4) (handler h s) fun found _ => ∀ q, found.1.target h limit = .ok q → p ≤ q := by
    intro h c s hf hc
    refine (handled hf hc).mono fun found _ _ _ q ht => ?_
    have := RecordHeader.of_frame hf
    have := Resume.stop_le_target ht
    omega
  exact (scan_safeAt hbehind hp (Nat.le_refl p)).mono fun _ _ _ h => h.2

/-! ## Fields -/

theorem Slot.read_safe : Safe Slot.read :=
  Safe.u32.bind fun _ => (Safe.u32.map _).bind fun _ => Safe.u32.bind fun _ => Safe.u16.bind fun _ =>
    (Safe.u16.map _).bind fun _ => Safe.utf8.bind fun _ => Safe.pure _

theorem NumericLeaf.readString_safe (offset : Nat) : Safe (NumericLeaf.readString offset) := by
  refine Safe.u16.bind fun length => (Safe.bytes length.toNat).bind fun found => ?_
  split
  · exact Safe.pure _
  · exact Safe.fail trivial

theorem NumericLeaf.readTagged_safe (offset : Nat) (tag : UInt16) : Safe (NumericLeaf.readTagged offset tag) := by
  unfold NumericLeaf.readTagged
  split
  · exact Safe.i8.map _
  · exact Safe.i16.map _
  · exact Safe.u16.map _
  · exact Safe.i32.map _
  · exact Safe.u32.map _
  · exact Safe.real32.map _
  · exact Safe.real64.map _
  · exact Safe.i64.map _
  · exact Safe.u64.map _
  · exact readString_safe offset
  · exact Safe.sixteen.map _
  · exact Safe.fail trivial

theorem NumericLeaf.read_safe : Safe NumericLeaf.read :=
  Safe.position.bind fun offset => Safe.u16.bind fun tag => (Safe.pure _).ite (readTagged_safe offset tag)

theorem Constant.read_safe : Safe Constant.read :=
  (Safe.u32.map _).bind fun _ => NumericLeaf.read_safe.bind fun _ => Safe.utf8.bind fun _ => Safe.pure _

theorem BlockRecord.read_safe (h : RecordHeader) : Safe (BlockRecord.read h) :=
  (Safe.check RecordHeader.ofData_of_fixedLayout).bind fun _ => Safe.u32.bind fun _ => Safe.u32.bind fun _ =>
    Safe.u32.bind fun _ => Safe.u32.bind fun _ => Safe.u16.bind fun _ => Safe.skipUtf8.bind fun _ => Safe.pure _

/-- The fields of a procedure are read safely, with its name or without. -/
theorem ProcedureRecord.read_safe (h : RecordHeader) (nameWanted : Bool) : Safe (ProcedureRecord.read h nameWanted) := by
  have hname : Safe (readName nameWanted) := (Safe.utf8.map _).ite (Safe.skipUtf8.map _)
  refine (Safe.check RecordHeader.ofData_of_fixedLayout).bind fun _ => ?_
  refine Safe.u32.bind fun _ => Safe.u32.bind fun _ => Safe.u32.bind fun _ => Safe.u32.bind fun _ => ?_
  refine Safe.u32.bind fun _ => Safe.u32.bind fun _ => (Safe.u32.map _).bind fun _ => Safe.u32.bind fun _ => ?_
  exact Safe.u16.bind fun _ => (Safe.u8.map _).bind fun _ => Safe.u16.bind fun _ => hname.bind fun _ => Safe.pure _

/-! ## Metadata -/

theorem HoistedRange.read_safe : Safe HoistedRange.read :=
  Safe.u32.bind fun _ => Safe.u32.bind fun _ => (Safe.require (e := .malformed _) _ trivial).bind fun _ => Safe.pure _

/-- A dynamic local is read safely: it has as many flag bytes as it may declare flags. -/
theorem DynamicLocal.read_safe : Safe DynamicLocal.read := by
  intro b p hp
  refine (SafeAt.bytes dynamicFlagBytes hp).bind fun flagBytes q hq hlength => ?_
  refine (Safe.u32 b q hq).bind fun count q hq _ => ?_
  refine (SafeAt.require (e := .malformed _) _ hq trivial).bind fun _ q hq hcount => ?_
  refine (Safe.u32 b q hq).bind fun slotIndex q hq _ => ?_
  refine (Safe.fixedUtf16 dynamicNameUnits b q hq).bind fun name q hq _ => ?_
  refine (SafeAt.require_of (hlength.symm ▸ hcount.1) hq).bind fun _ q hq _ => ?_
  exact .pure hq trivial

namespace MetadataItem

theorem readContent_safe (kind : MetadataKind) (version : UInt8) (length : UInt32) :
    Safe (readContent kind version length) := by
  cases kind with
  | usingInfo => exact Safe.u16.bind fun count => (Safe.u16.times count.toNat).map _
  | forwardInfo => exact Safe.u32.map _
  | forwardToModuleInfo => exact Safe.u32.map _
  | iteratorLocals => exact Safe.u32.bind fun count => (HoistedRange.read_safe.times count.toNat).map _
  | forwardIterator => exact Safe.utf16.map _
  | dynamicLocals => exact Safe.u32.bind fun count => (DynamicLocal.read_safe.times count.toNat).map _
  | editedLocalSlots => exact Safe.pure _
  | editedLambdas => exact Safe.pure _
  | unknown code => exact Safe.pure _

theorem read_safe : Safe MetadataItem.read := by
  refine Safe.position.bind fun start => Safe.u8.bind fun version => (Safe.u8.map _).bind fun kind => ?_
  refine (Safe.advance 2).bind fun _ => Safe.u32.bind fun length => ?_
  refine (Safe.require (e := .malformed _) _ trivial).bind fun _ => Safe.size.bind fun _ => ?_
  refine (Safe.require (e := .outOfBounds) _ trivial).bind fun _ => ?_
  have hcontent : Safe (readVersioned kind version length) := (readContent_safe kind version length).ite (Safe.pure _)
  exact hcontent.bind fun _ => (Safe.seek _).bind fun _ => Safe.pure _

theorem readBlob_safe : Safe readBlob := by
  refine Safe.u8.bind fun version => Safe.ite ?_ (Safe.pure _)
  exact Safe.u8.bind fun count => (Safe.align (by decide) (by decide)).bind fun _ => read_safe.times count.toNat

end MetadataItem

theorem SuspensionPoint.read_safe : Safe SuspensionPoint.read :=
  Safe.u32.bind fun _ => (Safe.u32.map _).bind fun _ => Safe.u32.bind fun _ => Safe.pure _

theorem Synchronization.read_safe : Safe Synchronization.read :=
  (Safe.u32.map _).bind fun _ => Safe.u32.bind fun _ => Safe.u32.bind fun count =>
    (SuspensionPoint.read_safe.times count.toNat).bind fun _ => Safe.pure _

/-- A read that is safe is safe as if the buffer ended earlier. -/
theorem Reader.Safe.within {α : Type} {r : Reader α} (h : Safe r) (stop : Nat) : Safe (Reader.within stop r) := by
  intro b p hp
  by_cases hc : stop ≤ b.size ∧ p ≤ stop
  · have hsize := Buffer.size_take hc.1
    have hinner := h (b.take stop) p (by omega)
    cases hr : r (b.take stop) p with
    | mk answer q =>
      cases answer with
      | ok a =>
        have hq := (hinner.post_of_ok hr).1
        have hinside : q ≤ b.size := by omega
        exact .of_ok (run_within hc.1 hc.2 hr hinside) hinside trivial
      | error e =>
        have hrun : Reader.within stop r b p = (.error e, p) := by
          simp only [Reader.within, if_pos hc, hr]
        exact .of_error hrun hp (hinner.ofData_of_error hr).2
  · exact .of_error (e := .outOfBounds) (by rw [Reader.within, if_neg hc]) hp trivial

theorem VendorPayload.readNamed_safe (name : String) : Safe (readNamed name) :=
  (MetadataItem.readBlob_safe.map _).ite ((Synchronization.read_safe.map _).ite (Safe.pure _))

theorem VendorPayload.read_safe (h : RecordHeader) : Safe (VendorPayload.read h) := by
  refine (Safe.check RecordHeader.ofData_of_fixedLayout).bind fun _ => Safe.guid.bind fun _ => Safe.u32.bind fun _ => ?_
  refine (Safe.require (e := .unknownVendor _ _ _) _ trivial).bind fun _ => Safe.utf16.bind fun name => ?_
  exact (readNamed_safe name).within h.stop

end ManagedSymbols
