import ManagedSymbols.Proofs.Module.Adjoining

/-!
# Vendor records in procedures and in blocks

A vendor record directly in the body of a procedure is read: its identifier must be the known one, and the metadata of a method is
what the payloads of these records add up to (`MethodBody.metadata_of_scanned`). The body of a block is gathered by another handler,
which has no case for vendor records. So in a module that is decoded a vendor record in a block, at any depth, is stepped over
whatever identifier it carries, and nothing of it reaches the method (`ModuleSymbols.vendors_of_read`).
-/

namespace ManagedSymbols

open Reader

/-! ## Identifiers and payloads -/

/-- The bytes of an identifier that is read are those at the cursor. -/
theorem Reader.of_guid {b : Buffer} {p q : Nat} {g : Guid} (h : guid b p = (.ok g, q)) :
    g.bytes.toList = b.slice p (p + 16) ∧ q = p + 16 := by
  obtain ⟨found, hfound, rfl⟩ := exists_of_map h
  rw [sixteen] at hfound
  split at hfound
  · cases hfound
    exact ⟨rfl, rfl⟩
  · cases hfound

namespace RecordHeader

/-- The identifier that a vendor record carries, behind its framing. -/
def identifier (b : Buffer) (h : RecordHeader) : List UInt8 :=
  b.slice (h.offset + 4) (h.offset + 20)

/-- The payload of a vendor record, if it can be read. -/
def payload? (b : Buffer) (h : RecordHeader) : Option VendorPayload :=
  if h.kind = .vendor then (VendorPayload.read h b (h.offset + 4)).1.toOption else none

end RecordHeader

/-- A vendor record that is read carries the known identifier. -/
theorem VendorPayload.identifier_of_read {h : RecordHeader} {b : Buffer} {payload : VendorPayload} {q : Nat}
    (hr : VendorPayload.read h b (h.offset + 4) = (.ok payload, q)) :
    h.identifier b = Guid.managedMetadata.bytes.toList := by
  obtain ⟨_, _, hfix, hr⟩ := exists_of_bind hr
  obtain ⟨_, rfl⟩ := of_check hfix
  obtain ⟨found, _, hguid, hr⟩ := exists_of_bind hr
  obtain ⟨hbytes, rfl⟩ := of_guid hguid
  obtain ⟨_, _, htype, hr⟩ := exists_of_bind hr
  obtain ⟨_, _, hknown, _⟩ := exists_of_bind hr
  obtain ⟨rfl, _⟩ := of_require hknown
  exact hbytes.symm

/-- Attaches the payload of a vendor record to what is attached to a method. -/
def MethodMetadata.attach (m : MethodMetadata) : VendorPayload → MethodMetadata
  | .metadata items => m.applyAll items
  | .asyncMethod info => { m with synchronization := some info }
  | .other _ => m

/-- A payload that is taken in is attached. -/
theorem MethodBody.metadata_applyPayload (m : MethodBody) (payload : VendorPayload) :
    (m.applyPayload payload).metadata = m.metadata.attach payload := by
  cases payload <;> rfl

/-! ## The body of a method -/

namespace MethodBody

variable {readBlock : BlockRecord → Reader Block} {limit p q r : Nat} {b : Buffer} {m m' : MethodBody} {h : RecordHeader}

/-- A step over a vendor record reads it and attaches its payload. -/
theorem exists_payload_of_step (step : ScanStep limit (gather readBlock limit) b p m h q m') (hv : h.kind = .vendor) :
    ∃ payload, h.payload? b = some payload ∧ h.identifier b = Guid.managedMetadata.bytes.toList ∧
      m'.metadata = m.metadata.attach payload := by
  obtain ⟨resume, c, hh, _⟩ := step.handled
  obtain rfl := step.bounds.1
  rw [gather_vendor hv] at hh
  obtain ⟨payload, _, hread, hh⟩ := exists_of_bind hh
  obtain ⟨hpair, _⟩ := of_pure hh
  cases hpair
  refine ⟨payload, ?_, VendorPayload.identifier_of_read hread, metadata_applyPayload m payload⟩
  rw [RecordHeader.payload?, if_pos hv, hread]
  rfl

/-- A step over any other record leaves what is attached. -/
theorem metadata_eq_of_step (step : ScanStep limit (gather readBlock limit) b p m h q m') (hv : h.kind ≠ .vendor) :
    m'.metadata = m.metadata := by
  obtain ⟨resume, c, hh, _⟩ := step.handled
  rw [gather_of_ne_vendor hv] at hh
  obtain ⟨_, _, _, hh⟩ := exists_of_bind hh
  obtain ⟨hpair, _⟩ := of_pure hh
  cases hpair
  rfl

/-- What is attached to a method is what the payloads of the vendor records directly in its body add up to. -/
theorem metadata_of_scanned {hs : List RecordHeader} (run : Scanned limit (gather readBlock limit) b p m hs m' r) :
    m'.metadata = (hs.filterMap (RecordHeader.payload? b)).foldl MethodMetadata.attach m.metadata := by
  induction run with
  | done behind => rfl
  | @step p q r m _ m' h hs first _ ih =>
    rw [ih]
    by_cases hv : h.kind = .vendor
    · obtain ⟨payload, hpayload, _, hattached⟩ := exists_payload_of_step first hv
      rw [hattached, List.filterMap_cons, hpayload, List.foldl_cons]
    · have hnone : h.payload? b = none := by rw [RecordHeader.payload?, if_neg hv]
      rw [metadata_eq_of_step first hv, List.filterMap_cons, hnone]

end MethodBody

/-- The body of a method that is read is scanned with the vendor records in it, and the records are those that are met in the body
alone. -/
theorem Method.scanned_of_read {moduleName : String} {options : Options} {h : RecordHeader} {record : ProcedureRecord} {b : Buffer}
    {m : Method} {q : Nat} (hr : Method.read moduleName options h record b h.stop = (.ok m, q)) :
    ∃ found, Scanned record.stop.toNat
        (MethodBody.gather (Block.readNested record.offset options.maxScopeDepth 0) record.stop.toNat) b h.stop {}
        ((BodySite.ofProcedure h record).gathering options.maxScopeDepth b).visited found record.stop.toNat ∧
      m.metadata = found.metadata := by
  obtain ⟨t, found, _, hscan, rfl, _⟩ := exists_body_of_read hr
  have run := scanned_of_scan hscan
  have hvisited := (MethodBody.scanned_body run).scanRun_eq
  refine ⟨found, ?_, ?_⟩
  · rw [BodySite.gathering, BodySite.ofProcedure, hvisited]
    exact run
  · split
    · rw [forVisualBasic]
      split <;> rfl
    · rfl

namespace ModuleSymbols

variable {moduleName : String} {limit : Nat} {options : Options} {b : Buffer} {p q r : Nat} {methods methods' : List Method}

/-- Each method that is found is that of a procedure that is met. -/
theorem exists_of_mem_scanned {hs : List RecordHeader}
    (run : Scanned limit (gather moduleName limit options) b p methods hs methods' r) {m : Method} (hm : m ∈ methods') :
    m ∈ methods ∨ ∃ h ∈ hs, ∃ record c q, h.kind.isProcedure = true ∧
      ProcedureRecord.read h options.readNames b (h.offset + 4) = (.ok record, c) ∧
      Method.read moduleName options h record b h.stop = (.ok m, q) := by
  induction run with
  | done behind => exact .inl hm
  | @step p q r methods _ _ h hs first _ ih =>
    rcases ih hm with hm | ⟨g, hg, hfound⟩
    · cases hk : h.kind.isProcedure with
      | false =>
        rw [(eq_of_step first hk).2] at hm
        exact .inl hm
      | true =>
        obtain ⟨record, c, m', hfields, _, hmethod, rfl⟩ := exists_of_step first hk
        rcases List.mem_append.mp hm with hm | hm
        · exact .inl hm
        · obtain rfl := List.mem_singleton.mp hm
          exact .inr ⟨h, List.mem_cons_self, record, c, q, hk, hfields, hmethod⟩
    · exact .inr ⟨g, List.mem_cons_of_mem _ hg, hfound⟩

/-- In a module that is decoded each vendor record directly in the body of a procedure carries the known identifier and its payload
is read, and a vendor record in a block is stepped over whatever it carries: the scan goes on behind it with the body that it had.
The metadata of each method is what the payloads of the vendor records directly in the body of its procedure add up to. -/
theorem vendors_of_read {found : Option (List Method)} (hr : read moduleName limit options b p = (.ok found, q)) :
    (∀ site, Reaches moduleName limit options b p site → ∀ h ∈ (site.gathering options.maxScopeDepth b).visited,
      h.kind = .vendor →
        if site.depth = 0 then h.identifier b = Guid.managedMetadata.bytes.toList ∧ (h.payload? b).isSome = true
        else ∃ c body, ScanStep site.stop
          (Body.gather (Block.readNested site.address options.maxScopeDepth site.depth) site.stop) b c body h h.stop body) ∧
      ∀ m ∈ found.getD [], ∃ h ∈ (gathering moduleName limit options b p).visited, ∃ record c,
        ProcedureRecord.read h options.readNames b (h.offset + 4) = (.ok record, c) ∧
        m.metadata = (((BodySite.ofProcedure h record).gathering options.maxScopeDepth b).visited.filterMap
          (RecordHeader.payload? b)).foldl MethodMetadata.attach {} := by
  obtain ⟨_, _, gs, _, run, _⟩ := scanned_of_read hr
  have hvisited : (gathering moduleName limit options b p).visited = gs := by rw [gathering, run.scanRun_eq]
  constructor
  · rintro site ⟨met, kind, fields, inside⟩ g hg hv
    rw [hvisited] at met
    obtain ⟨_, _, hmethod, _⟩ := exists_of_met run met kind fields
    obtain ⟨_, _, hprocedure, _⟩ := BodySite.read_of_method hmethod
    cases inside with
    | self =>
      obtain ⟨_, hscanned, _⟩ := Method.scanned_of_read hmethod
      obtain ⟨_, _, _, _, hstep⟩ := hscanned.exists_step_of_mem hg
      obtain ⟨payload, hpayload, hidentifier, _⟩ := MethodBody.exists_payload_of_step hstep hv
      exact ⟨hidentifier, by rw [hpayload]; rfl⟩
    | @block outer opener block _ inner met' kind' fields' =>
      have hdepth : (outer.ofBlock opener block).depth ≠ 0 := Nat.succ_ne_zero _
      rw [if_neg hdepth]
      obtain ⟨_, _, hread, _⟩ := hprocedure.exists_of_inside (.block inner met' kind' fields')
      obtain ⟨c, before, q', after, hstep, taken⟩ := hread.exists_taken hg
      obtain ⟨rfl, hsame⟩ := taken.eq_of_not_counted (by rw [hv]; rfl)
      rw [hsame] at hstep
      exact ⟨c, before, hstep⟩
  · intro m hm
    rcases exists_of_mem_scanned run hm with hm | ⟨h, hh, record, c, _, _, hfields, hmethod⟩
    · cases hm
    · obtain ⟨body, hscanned, hmetadata⟩ := Method.scanned_of_read hmethod
      rw [← hvisited] at hh
      exact ⟨h, hh, record, c, hfields, by rw [hmetadata, MethodBody.metadata_of_scanned hscanned]⟩

/-- A vendor record with the known identifier directly in a procedure is read. -/
theorem vendors_of_read_sample : ∃ found q, read "M" 126 {} sampleWithVendors 0 = (.ok found, q) ∧
    ∃ h : RecordHeader, h ∈ (BodySite.gathering ⟨0, 0, 43, 122⟩ 128 sampleWithVendors).visited ∧ h.kind = .vendor ∧
      h.identifier sampleWithVendors = Guid.managedMetadata.bytes.toList := by
  obtain ⟨m, q, hr, _⟩ := read_sampleWithVendors
  obtain ⟨hreached, hmet, _⟩ := reaches_sampleWithVendors
  have hcarries := (vendors_of_read hr).1 _ hreached _ hmet rfl
  exact ⟨some [m], q, hr, _, hmet, rfl, hcarries.1⟩

/-- A vendor record in a block may carry an identifier that is not known, and the module is decoded all the same. -/
theorem vendor_skipped : ∃ methods q site h, read "M" 126 {} sampleWithVendors 0 = (.ok (some methods), q) ∧
    Reaches "M" 126 {} sampleWithVendors 0 site ∧ h ∈ (site.gathering 128 sampleWithVendors).visited ∧ h.kind = .vendor ∧
    h.identifier sampleWithVendors ≠ Guid.managedMetadata.bytes.toList := by
  obtain ⟨m, q, hr, _⟩ := read_sampleWithVendors
  obtain ⟨_, _, hreached, hmet, hforeign⟩ := reaches_sampleWithVendors
  exact ⟨[m], q, _, _, hr, hreached, hmet, rfl, hforeign⟩

end ModuleSymbols

end ManagedSymbols
