import ManagedSymbols.Proofs.Layout.Body
import ManagedSymbols.Proofs.Layout.Metadata
import ManagedSymbols.Proofs.Method.Gather

/-!
# Methods are read where their procedures are stored

A vendor record is read where it is stored (`VendorPayload.reads`), so each entry of a procedure's body is one step of the
gathering scan (`ProcedureEntry.gather_stored`) and is counted as what it adds (`ProcedureEntry.measure_stored`). The method that
is read is the one that the description of the procedure tells of (`ProcedureShape.read_method`).
-/

namespace ManagedSymbols

open Reader

/-- What is stored up to a position is read in the buffer that ends there. -/
theorem Reader.Reads.within {α : Type} {p stop : Nat} {r : Reader α} {xs : List UInt8} {a : α} (h : Reads p r xs a)
    (hs : p + xs.length = stop) : Reads p (Reader.within stop r) xs a := by
  intro b hb
  have hsize := hb.le_size
  exact run_within (by omega) (by omega) (h _ (hb.take (by omega))) hsize

/-- The payload of a vendor record is read behind the identifier, the type index and the name. -/
theorem VendorPayload.reads {p : Nat} {h : RecordHeader} {name : String} {xs : List UInt8} {payload : VendorPayload}
    (hfix : h.fixedLayout = .ok ()) (hn : Layout.NulFree name)
    (hpayload : Reads (p + (ProcedureEntry.vendorFields name).length) (readNamed name) xs payload)
    (hstop : p + (ProcedureEntry.vendorFields name ++ xs).length = h.stop) :
    Reads p (VendorPayload.read h) (ProcedureEntry.vendorFields name ++ xs) payload := by
  rw [VendorPayload.read, hfix]
  simp only [ProcedureEntry.vendorFields, List.append_assoc, List.length_append, ← Nat.add_assoc] at hstop hpayload ⊢
  refine (Reads.check p ()).bind_nil ?_
  refine ((Reads.sixteen p Guid.managedMetadata.bytes).map Guid.mk).bind ?_
  refine (Reads.u32 _ 0).bind ?_
  refine (Reads.require _ _ rfl).bind_nil ?_
  refine (Reads.utf16 _ hn).bind ?_
  exact hpayload.within hstop

/-- The method body with what one more entry says, in a method that starts at an address. -/
def MethodBody.after (address : UInt32) (m : MethodBody) : ProcedureEntry → MethodBody
  | .entry e => { m with body := m.body.after address e }
  | .metadata items => m.applyPayload (.metadata (items.map StoredItem.item))
  | .asyncMethod info => m.applyPayload (.asyncMethod info)

namespace MethodBody

/-- What entries add to the body of a method is what the plain ones among them add to it. -/
theorem body_foldl_after (address : UInt32) (entries : List ProcedureEntry) (m : MethodBody) :
    (entries.foldl (after address) m).body = (entries.filterMap ProcedureEntry.entry?).foldl (Body.after address) m.body := by
  induction entries generalizing m with
  | nil => rfl
  | cons e rest ih =>
    rw [List.foldl_cons, ih]
    cases e <;> rfl

/-- What entries add to the metadata of a method: all their items, and the last description of an async method. -/
theorem metadata_foldl_after (address : UInt32) (entries : List ProcedureEntry) (m : MethodBody) :
    (entries.foldl (after address) m).metadata = { m.metadata.applyAll (entries.flatMap ProcedureEntry.items) with
      synchronization :=
        (entries.filterMap ProcedureEntry.synchronization?).getLast?.or m.metadata.synchronization } := by
  induction entries generalizing m with
  | nil => simp [MethodMetadata.applyAll]
  | cons e rest ih =>
    rw [List.foldl_cons, ih]
    cases e with
    | entry e => rfl
    | metadata items =>
      simp only [after, applyPayload, List.flatMap_cons, ProcedureEntry.items, MethodMetadata.applyAll_append,
        MethodMetadata.synchronization_applyAll]
      rfl
    | asyncMethod info =>
      simp [after, applyPayload, ProcedureEntry.items, ProcedureEntry.synchronization?, MethodMetadata.applyAll_eq,
        List.getLast?_cons]

end MethodBody

/-- The metadata of a procedure is what its entries add to no metadata. -/
theorem ProcedureShape.metadata_eq (p : ProcedureShape) (address : UInt32) :
    p.metadata = (p.entries.foldl (MethodBody.after address) {}).metadata := by
  rw [MethodBody.metadata_foldl_after, MethodMetadata.applyAll_eq]
  simp [ProcedureShape.metadata]

namespace ProcedureEntry

/-- An entry is at least four bytes long. -/
theorem four_le_length_stored (base : Nat) (e : ProcedureEntry) : 4 ≤ (e.stored base).length := by
  cases e with
  | entry e => exact e.four_le_length_stored base
  | _ => simp only [stored, Layout.length_record]; omega

variable {address : UInt32} {maxDepth base limit : Nat} {b : Buffer} {m : MethodBody}

/-- A vendor record whose payload is read is one step of the gathering scan. -/
theorem step_over_vendor {readBlock : BlockRecord → Reader Block} {name : String} {xs : List UInt8} {payload : VendorPayload}
    (hlen : (vendorFields name ++ xs).length + 2 < 2 ^ 16) (hn : Layout.NulFree name)
    (hb : b.Holds base (Layout.record .vendor (vendorFields name ++ xs)))
    (hlimit : base + (Layout.record .vendor (vendorFields name ++ xs)).length ≤ limit)
    (hpayload : Reads (base + 4 + (vendorFields name).length) (VendorPayload.readNamed name) xs payload) :
    ∃ h, ScanStep limit (MethodBody.gather readBlock limit) b base m h
      (base + (Layout.record .vendor (vendorFields name ++ xs)).length) (m.applyPayload payload) := by
  have hfix : (Layout.header base .vendor (vendorFields name ++ xs)).fixedLayout = .ok () := by
    refine RecordHeader.fixedLayout_header hlen ?_
    simp [vendorFields, Layout.utf16, Reader.length_units, RecordKind.minimumLength]
    omega
  have hread := VendorPayload.reads (p := base + 4) hfix hn hpayload rfl b hb.body
  have hgathered : MethodBody.gather readBlock limit (Layout.header base .vendor (vendorFields name ++ xs)) m b (base + 4) =
      (.ok (.afterRecord, m.applyPayload payload), base + 4 + (vendorFields name ++ xs).length) := by
    rw [MethodBody.gather_vendor rfl, run_bind_ok hread]
    rfl
  exact ⟨_, ScanStep.behind rfl hlen hb hlimit hgathered⟩

/-- Where an entry is stored, the gathering scan makes one step over all of it and adds what the entry says. -/
theorem gather_stored {e : ProcedureEntry} (he : e.Storable address base) (hb : b.Holds base (e.stored base))
    (hlimit : base + (e.stored base).length ≤ limit) (hw : limit ≤ 2 ^ 32) (hdepth : e.depth ≤ maxDepth) :
    ∃ h, ScanStep limit (MethodBody.gather (Block.read address maxDepth 1) limit) b base m h (base + (e.stored base).length)
      (m.after address e) := by
  cases e with
  | entry e =>
    have hinner : 0 + e.depth ≤ maxDepth := by rwa [Nat.zero_add]
    obtain ⟨h, hv, step⟩ := e.gather_stored he hb hlimit hw hinner (Nat.zero_le base)
    exact ⟨h, step.ofBody hv⟩
  | metadata items =>
    have hlen := he.2.2
    simp only [stored, Layout.length_record] at hlen
    show ∃ h, ScanStep limit _ b base m h _ (m.applyPayload (.metadata (items.map StoredItem.item)))
    refine step_over_vendor (by omega) (by decide) hb hlimit ?_
    simp only [Layout.openerSize, ← Nat.add_assoc]
    exact (MetadataItem.readBlob_reads _ he.1 he.2.1).map _
  | asyncMethod info =>
    have hlen := he.2
    simp only [stored, Layout.length_record] at hlen
    show ∃ h, ScanStep limit _ b base m h _ (m.applyPayload (.asyncMethod info))
    refine step_over_vendor (by omega) (by decide) hb hlimit ?_
    exact (Synchronization.reads _ he.1).map _

/-- Where entries are stored up to the limit, the gathering scan adds what they say. -/
theorem gather_storedAll {entries : List ProcedureEntry} (he : StorableAll address base entries)
    (hb : b.Holds base (storedAll base entries)) (hlimit : base + (storedAll base entries).length = limit)
    (hw : limit ≤ 2 ^ 32) (hdepth : ∀ e ∈ entries, e.depth ≤ maxDepth) :
    scan limit (MethodBody.gather (Block.read address maxDepth 1) limit) m b base =
      (.ok (entries.foldl (MethodBody.after address) m), limit) := by
  induction entries generalizing base m with
  | nil => exact scan_of_eq hlimit
  | cons e rest ih =>
    simp only [storedAll, List.length_append] at hb hlimit
    simp only [List.mem_cons, forall_eq_or_imp] at hdepth
    obtain ⟨_, step⟩ := gather_stored he.1 hb.left (by omega) hw hdepth.1 (m := m)
    rw [step.scan_eq, List.foldl_cons]
    exact ih he.2 hb.right (by omega) hdepth.2

/-- Where an entry is stored, it is counted as what it adds to the body of a method; vendor records are not counted. -/
theorem measure_stored {e : ProcedureEntry} (he : e.Storable address base) (hb : b.Holds base (e.stored base))
    (hlimit : base + (e.stored base).length ≤ limit) (hw : limit ≤ 2 ^ 32) (hbody : m.body.Within base) :
    scan limit (Tally.count limit) m.body.tally b base =
      scan limit (Tally.count limit) (m.after address e).body.tally b (base + (e.stored base).length) := by
  cases e with
  | entry e => exact e.measure_stored he hb hlimit hw hbody
  | metadata items =>
    have hlen := he.2.2
    simp only [stored, Layout.length_record] at hlen
    exact (ScanStep.behind (r := base + 4) rfl (by omega) hb hlimit rfl).scan_eq
  | asyncMethod info =>
    have hlen := he.2
    simp only [stored, Layout.length_record] at hlen
    exact (ScanStep.behind (r := base + 4) rfl (by omega) hb hlimit rfl).scan_eq

/-- An entry adds at most one thing to the body of a method. -/
theorem within_after {n : Nat} (h : m.body.Within base) (hn : base < n) (e : ProcedureEntry) :
    (m.after address e).body.Within n := by
  cases e with
  | entry e => exact h.after hn address e
  | _ => exact h.mono (Nat.le_of_lt hn)

/-- Where entries are stored up to the limit, they are counted as what they add to the body of a method. -/
theorem measure_storedAll {entries : List ProcedureEntry} (he : StorableAll address base entries)
    (hb : b.Holds base (storedAll base entries)) (hlimit : base + (storedAll base entries).length = limit)
    (hw : limit ≤ 2 ^ 32) (hbody : m.body.Within base) :
    scan limit (Tally.count limit) m.body.tally b base =
      (.ok (entries.foldl (MethodBody.after address) m).body.tally, limit) := by
  induction entries generalizing base m with
  | nil => exact scan_of_eq hlimit
  | cons e rest ih =>
    simp only [storedAll, List.length_append] at hb hlimit
    have hsize := e.four_le_length_stored base
    rw [measure_stored he.1 hb.left (by omega) hw hbody, List.foldl_cons]
    exact ih he.2 hb.right (by omega) (within_after hbody (by omega) e)

end ProcedureEntry

namespace ProcedureShape

/-- Where the terminator of a procedure stands, if the procedure starts at a position. -/
def bodyStop (p : ProcedureShape) (base : Nat) : Nat :=
  p.bodyStart base + (ProcedureEntry.storedAll (p.bodyStart base) p.entries).length

/-- The fields of the record of a procedure that starts at a position. -/
def storedFields (p : ProcedureShape) (base : Nat) : List UInt8 :=
  p.fields (UInt32.ofNat (p.bodyStop base))

/-- The framing of the record of a procedure that starts at a position. -/
def storedHeader (p : ProcedureShape) (base : Nat) : RecordHeader :=
  Layout.header base p.kind (p.storedFields base)

/-- The fields of a procedure's record as they are read back. -/
def record (p : ProcedureShape) (nameWanted : Bool) (stop : UInt32) : ProcedureRecord where
  parent := 0
  stop := stop
  next := 0
  length := p.length
  debugStart := p.debugStart
  debugEnd := p.debugEnd
  token := p.token
  offset := p.address
  segment := 1
  flags := p.flags
  returnRegister := p.returnRegister
  name := if nameWanted then some p.name else none

variable {p : ProcedureShape} {maxDepth base limit : Nat} {b : Buffer}

@[simp] theorem length_fields (stop : UInt32) : (p.fields stop).length = 37 + (Layout.utf8 p.name).length := by
  simp only [fields, List.length_append, Layout.length_word32, Layout.length_word16, List.length_singleton]

/-- The kind of a procedure is told from its code. -/
theorem ofCode_code_kind : RecordKind.ofCode p.kind.code = p.kind := by
  rw [kind]
  cases p.isGlobal <;> rfl

/-- The record of a stored procedure says that it is a procedure. -/
theorem storedHeader_isProcedure : (p.storedHeader base).kind.isProcedure = true := by
  show p.kind.isProcedure = true
  rw [kind]
  cases p.isGlobal <;> rfl

/-- The fixed fields of both kinds of procedures are equally long. -/
theorem minimumLength_kind : p.kind.minimumLength = 39 := by
  rw [kind]
  cases p.isGlobal <;> rfl

/-- The body of a stored procedure starts behind its fields. -/
theorem bodyStart_eq : base + 4 + (p.storedFields base).length = p.bodyStart base := by
  rw [storedFields, length_fields, bodyStart, Layout.openerSize, length_fields, Nat.add_assoc]

/-- The record of a stored procedure ends where its body starts. -/
theorem storedHeader_stop : (p.storedHeader base).stop = p.bodyStart base :=
  bodyStart_eq

/-- A procedure is stored as its record, which names the place of its terminator, its body and the terminator. -/
theorem stored_eq : p.stored base = Layout.record p.kind (p.storedFields base) ++
    ProcedureEntry.storedAll (p.bodyStart base) p.entries ++ Layout.terminator :=
  rfl

/-- A stored procedure ends behind its terminator. -/
theorem length_stored (p : ProcedureShape) (base : Nat) : base + (p.stored base).length = p.bodyStop base + 4 := by
  rw [stored_eq]
  simp only [List.length_append, Layout.length_record, Layout.terminator, storedFields, length_fields, List.length_nil,
    bodyStop, bodyStart, Layout.openerSize]
  omega

/-- A procedure does not stop in front of its start. -/
theorem le_bodyStop (p : ProcedureShape) (base : Nat) : base ≤ p.bodyStop base :=
  Nat.le_trans (Nat.le_add_right _ _) (Nat.le_add_right _ _)

/-- The record of a stored procedure can be stored as well with the place of its terminator in it. -/
theorem storedFields_fit (he : p.Storable maxDepth base) : (p.storedFields base).length + 2 < 2 ^ 16 := by
  have hlen := he.2.1
  rw [length_fields] at hlen
  rwa [storedFields, length_fields]

/-- The record, the body and the terminator of a stored procedure, each where it is held. -/
theorem holds (hb : b.Holds base (p.stored base)) :
    b.Holds base (Layout.record p.kind (p.storedFields base)) ∧
      b.Holds (p.bodyStart base) (ProcedureEntry.storedAll (p.bodyStart base) p.entries) ∧
      b.Holds (p.bodyStop base) Layout.terminator := by
  rw [stored_eq] at hb
  have h := hb.opener
  rwa [bodyStart_eq] at h

/-- The record of a stored procedure is long enough, and the terminator it declares is accepted. -/
theorem checks (he : p.Storable maxDepth base) (hlimit : p.bodyStop base + 4 ≤ limit) (hw : p.bodyStop base + 4 ≤ 2 ^ 32) :
    (p.storedHeader base).fixedLayout = .ok () ∧
      (p.storedHeader base).checkedEnd (UInt32.ofNat (p.bodyStop base)) limit = .ok (p.bodyStop base) := by
  constructor
  · refine RecordHeader.fixedLayout_header (storedFields_fit he) ?_
    rw [storedFields, length_fields, minimumLength_kind]
    omega
  · refine RecordHeader.checkedEnd_of_le (by omega) ?_ hlimit
    rw [storedHeader_stop]
    exact Nat.le_add_right _ _

/-- The name of a procedure is read if it is asked for and stepped over otherwise. -/
theorem readName_reads (q : Nat) (wanted : Bool) (hn : Layout.NulFree p.name) :
    Reads q (ProcedureRecord.readName wanted) (Layout.utf8 p.name) (if wanted then some p.name else none) := by
  cases wanted with
  | true => exact (Reads.utf8 q hn).map some
  | false => exact (Reads.skipUtf8 q hn).map fun _ => none

theorem record_reads (q : Nat) {h : RecordHeader} (hfix : h.fixedLayout = .ok ()) (hn : Layout.NulFree p.name)
    (wanted : Bool) (stop : UInt32) : Reads q (ProcedureRecord.read h wanted) (p.fields stop) (p.record wanted stop) := by
  simp only [fields, List.append_assoc]
  rw [ProcedureRecord.read, hfix]
  refine (Reads.check q ()).bind_nil ?_
  refine (Reads.u32 _ 0).bind ?_
  refine (Reads.u32 _ stop).bind ?_
  refine (Reads.u32 _ 0).bind ?_
  refine (Reads.u32 _ p.length).bind ?_
  refine (Reads.u32 _ p.debugStart).bind ?_
  refine (Reads.u32 _ p.debugEnd).bind ?_
  refine ((Reads.u32 _ p.token.value).map Token.mk).bind ?_
  refine (Reads.u32 _ p.address).bind ?_
  refine (Reads.u16 _ 1).bind ?_
  refine ((Reads.u8 _ p.flags.bits).map ProcedureFlags.mk).bind ?_
  refine (Reads.u16 _ p.returnRegister).bind ?_
  exact (readName_reads _ wanted hn).bind_pure _

/-- The method that is made of a procedure's record and body is the one that the procedure tells of. -/
theorem method_eq (moduleName : String) (options : Options) (stop : UInt32) {m : MethodBody}
    (hm : m = p.entries.foldl (MethodBody.after p.address) {}) :
    (if options.visualBasic then
        (Method.ofBody moduleName (p.record options.readNames stop) m.body.tally.hasLocals m).forVisualBasic
      else Method.ofBody moduleName (p.record options.readNames stop) m.body.tally.hasLocals m) =
      p.method moduleName options := by
  have hmetadata : m.metadata = p.metadata := by rw [hm, ← metadata_eq]
  have hbody : m.body = (p.entries.filterMap ProcedureEntry.entry?).foldl (Body.after p.address) {} := by
    rw [hm, MethodBody.body_foldl_after]
  rw [Body.foldl_after_empty] at hbody
  simp only [Method.ofBody, Body.hasLocals_tally, ite_not]
  simp only [Method.forVisualBasic, hmetadata, hbody, record, method]
  cases options.visualBasic <;> rfl

/-- Where a procedure is stored, its method is read from behind its record and the cursor is left behind its terminator. -/
theorem read_method (moduleName : String) (options : Options) (he : p.Storable options.maxScopeDepth base)
    (hb : b.Holds base (p.stored base)) (hw : p.bodyStop base + 4 ≤ 2 ^ 32) :
    Method.read moduleName options (p.storedHeader base) (p.record options.readNames (UInt32.ofNat (p.bodyStop base))) b
      (p.bodyStart base) = (.ok (p.method moduleName options), p.bodyStop base + 4) := by
  obtain ⟨_, hinner, hend⟩ := holds hb
  have hrecord : Method.checkRecord (p.storedHeader base) (p.record options.readNames (UInt32.ofNat (p.bodyStop base))) =
      .ok () := by
    simp [Method.checkRecord, record]
  have hstop : (p.storedHeader base).checkedEnd (p.record options.readNames (UInt32.ofNat (p.bodyStop base))).stop b.size =
      .ok (p.bodyStop base) := (checks he hend.le_size hw).2
  have hlength : p.bodyStart base + (ProcedureEntry.storedAll (p.bodyStart base) p.entries).length = p.bodyStop base := rfl
  have hmeasure := Tally.measure_of_scan (ProcedureEntry.measure_storedAll (m := {}) he.2.2.1 hinner hlength (by omega)
    (Body.Within.empty _))
  have hgather := ProcedureEntry.gather_storedAll (m := {}) he.2.2.1 hinner hlength (by omega) he.2.2.2
  have hterminator := expectEnd_reads (p.storedHeader base).kind (p.bodyStop base) b hend
  have hmethod := method_eq (p := p) moduleName options (UInt32.ofNat (p.bodyStop base)) rfl
  have hoffset : (p.record options.readNames (UInt32.ofNat (p.bodyStop base))).offset = p.address := rfl
  simp only [Method.read, run_bind, Reader.check, Reader.size, hrecord, hstop, hoffset, hmeasure, hgather, hterminator,
    run_pure]
  rw [hmethod]
  rfl

end ProcedureShape

end ManagedSymbols
