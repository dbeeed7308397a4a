import ManagedSymbols.ModuleSymbols
import ManagedSymbols.Proofs.Layout.Method

/-!
# The bodies that the decoding of a module reaches

A module is decoded procedure by procedure, and a procedure block by block. `BodySite.Inside` tells of all bodies that lie in
a body, at any depth, and `ModuleSymbols.Reaches` of those in the procedures that the second walk meets. If the decoding succeeds,
each of them has been measured and gathered (`BodySite.Read.exists_of_inside`, `ModuleSymbols.exists_of_reaches`).
-/

namespace ManagedSymbols

open Reader

/-- A body that is read: where its method starts in the code, how deep it is nested, where it starts and where its terminator
stands. -/
structure BodySite where
  address : UInt32
  /-- Zero for the body of a procedure, one more than the enclosing body for that of a block. -/
  depth : Nat
  start : Nat
  stop : Nat

namespace BodySite

/-- The body of a procedure. -/
def ofProcedure (h : RecordHeader) (record : ProcedureRecord) : BodySite where
  address := record.offset
  depth := 0
  start := h.stop
  stop := record.stop.toNat

/-- The body of a block in a body. -/
def ofBlock (s : BodySite) (h : RecordHeader) (record : BlockRecord) : BodySite where
  address := s.address
  depth := s.depth + 1
  start := h.stop
  stop := record.stop.toNat

/-- The scan that measures a body. -/
def measuring (s : BodySite) (b : Buffer) : ScanRun Tally :=
  scanRun s.stop (Tally.count s.stop) {} b s.start

/-- The scan that gathers a body. -/
def gathering (s : BodySite) (maxDepth : Nat) (b : Buffer) : ScanRun Body :=
  scanRun s.stop (Body.gather (Block.readNested s.address maxDepth s.depth) s.stop) {} b s.start

/-- A body that has been read: what its measure is and what is gathered of it. -/
structure Read (s : BodySite) (maxDepth : Nat) (b : Buffer) (t : Tally) (body : Body) : Prop where
  measured : Tally.measure s.stop b s.start = (.ok t, s.start)
  gathered : scan s.stop (Body.gather (Block.readNested s.address maxDepth s.depth) s.stop) {} b s.start = (.ok body, s.stop)

variable {s : BodySite} {maxDepth : Nat} {b : Buffer} {t : Tally} {body : Body}

theorem Read.measuring_scanned (hr : s.Read maxDepth b t body) :
    Scanned s.stop (Tally.count s.stop) b s.start {} (s.measuring b).visited t (s.measuring b).cursor :=
  (Tally.of_measure hr.measured).2

theorem Read.gathering_scanned (hr : s.Read maxDepth b t body) :
    Scanned s.stop (Body.gather (Block.readNested s.address maxDepth s.depth) s.stop) b s.start {}
      (s.gathering maxDepth b).visited body s.stop :=
  scanned_of_scan hr.gathered

/-- A record that is met in a body that has been read is taken. -/
theorem Read.exists_taken (hr : s.Read maxDepth b t body) {h : RecordHeader} (hh : h ∈ (s.gathering maxDepth b).visited) :
    ∃ p before q after, ScanStep s.stop (Body.gather (Block.readNested s.address maxDepth s.depth) s.stop) b p before h q
      after ∧ Body.Taken (Block.readNested s.address maxDepth s.depth) s.stop b h before q after := by
  obtain ⟨p, before, q, after, step⟩ := hr.gathering_scanned.exists_step_of_mem hh
  exact ⟨p, before, q, after, step, Body.taken_of_step step⟩

/-- A block that is met in a body that has been read is read, and its scope holds its body, which has been read as well. Its
terminator is accepted in the body. -/
theorem Read.exists_ofBlock (hr : s.Read maxDepth b t body) {h : RecordHeader} (hh : h ∈ (s.gathering maxDepth b).visited)
    (hk : h.kind = .block) {record : BlockRecord} {r : Nat} (hf : BlockRecord.read h b (h.offset + 4) = (.ok record, r)) :
    ∃ t body q, (s.ofBlock h record).Read maxDepth b t body ∧
      Block.readNested s.address maxDepth s.depth record b h.stop = (.ok (.ofBody s.address record body), q) ∧
      h.checkedEnd record.stop s.stop = .ok record.stop.toNat := by
  obtain ⟨_, _, q, _, _, taken⟩ := hr.exists_taken hh
  obtain ⟨found, block, _, fields, ended, inner, _⟩ := taken.exists_of_block hk
  rw [hf] at fields
  cases fields
  obtain ⟨t, body, hmeasured, hgathered, rfl, _⟩ := Block.parts_of_read (Block.read_of_readNested inner)
  exact ⟨t, body, q, ⟨hmeasured, hgathered⟩, inner, ended⟩

/-- The bodies inside a body: itself, and those of the blocks that are met in a body inside it. -/
inductive Inside (maxDepth : Nat) (b : Buffer) (outer : BodySite) : BodySite → Prop where
  | self : Inside maxDepth b outer outer
  | block {site : BodySite} {h : RecordHeader} {record : BlockRecord} {r : Nat} (inside : Inside maxDepth b outer site)
      (met : h ∈ (site.gathering maxDepth b).visited) (kind : h.kind = .block)
      (fields : BlockRecord.read h b (h.offset + 4) = (.ok record, r)) : Inside maxDepth b outer (site.ofBlock h record)

/-- Each body inside a body that has been read has been read, and stops no later. -/
theorem Read.exists_of_inside (hr : s.Read maxDepth b t body) {site : BodySite} (hs : s.Inside maxDepth b site) :
    ∃ t body, site.Read maxDepth b t body ∧ site.stop ≤ s.stop := by
  induction hs with
  | self => exact ⟨t, body, hr, Nat.le_refl _⟩
  | block _ met kind fields ih =>
    obtain ⟨_, _, hread, hstop⟩ := ih
    obtain ⟨t, body, _, hblock, _, ended⟩ := hread.exists_ofBlock met kind fields
    obtain ⟨_, _, hinside⟩ := RecordHeader.of_checkedEnd ended
    exact ⟨t, body, hblock, Nat.le_trans (Nat.le_of_add_right_le hinside) hstop⟩

/-- The body of a method that is read has been read and has its terminator in the buffer. The method has a root if the measure has
found something, and keeps what the body holds. -/
theorem read_of_method {moduleName : String} {options : Options} {h : RecordHeader} {record : ProcedureRecord} {m : Method}
    {q : Nat} (hr : Method.read moduleName options h record b h.stop = (.ok m, q)) :
    ∃ t body, (ofProcedure h record).Read options.maxScopeDepth b t body ∧
      (ofProcedure h record).stop + terminatorSize ≤ b.size ∧
      m.root.isSome = t.hasLocals ∧ m.slots = body.slots ∧ m.constants = body.constants ∧
      m.usedNamespaces = body.usedNamespaces ∧ m.blocks.length = body.scopes.length := by
  obtain ⟨t, body, hmeasured, hgathered, hparts, _, rfl, hsize⟩ := Method.parts_of_read hr
  exact ⟨t, body, ⟨hmeasured, hgathered⟩, hsize, hparts⟩

end BodySite

namespace ModuleSymbols

/-- The records that the second walk of a module meets. -/
def gathering (moduleName : String) (limit : Nat) (options : Options) (b : Buffer) (start : Nat) : ScanRun (List Method) :=
  scanRun limit (gather moduleName limit options) [] b start

/-- The bodies that the decoding of a module reaches: those inside the body of a procedure that is met. -/
inductive Reaches (moduleName : String) (limit : Nat) (options : Options) (b : Buffer) (start : Nat) (site : BodySite) : Prop where
  | procedure {h : RecordHeader} {record : ProcedureRecord} {r : Nat}
      (met : h ∈ (gathering moduleName limit options b start).visited) (kind : h.kind.isProcedure = true)
      (fields : ProcedureRecord.read h options.readNames b (h.offset + 4) = (.ok record, r))
      (inside : (BodySite.ofProcedure h record).Inside options.maxScopeDepth b site)

variable {moduleName : String} {limit : Nat} {options : Options} {b : Buffer} {p q : Nat} {methods methods' : List Method}

/-- The body of a procedure whose address and terminator are known is reached. -/
theorem reaches_of_answer (address stop : UInt32) {h : RecordHeader}
    (met : h ∈ (gathering moduleName limit options b p).visited) (kind : h.kind.isProcedure = true)
    (fields : (ProcedureRecord.read h options.readNames b (h.offset + 4)).1.toOption.map (fun record =>
      (record.offset, record.stop)) = some (address, stop)) :
    Reaches moduleName limit options b p ⟨address, 0, h.stop, stop.toNat⟩ := by
  obtain ⟨record, _, hfields, hplace⟩ := exists_of_answer fields
  cases hplace
  exact .procedure met kind hfields .self

/-- The body of a block whose terminator is known is reached if the body around it is. -/
theorem Reaches.ofBlock {site : BodySite} (hs : Reaches moduleName limit options b p site) (stop : UInt32) {h : RecordHeader}
    (met : h ∈ (site.gathering options.maxScopeDepth b).visited) (kind : h.kind = .block)
    (fields : (BlockRecord.read h b (h.offset + 4)).1.toOption.map BlockRecord.stop = some stop) :
    Reaches moduleName limit options b p ⟨site.address, site.depth + 1, h.stop, stop.toNat⟩ := by
  obtain ⟨hmet, hkind, hfields, hinside⟩ := hs
  obtain ⟨record, _, hrecord, rfl⟩ := exists_of_answer fields
  exact .procedure hmet hkind hfields (.block hinside met kind hrecord)

/-- A module that is read has been walked once, and nothing is found if no procedure is counted; otherwise it has been walked
again from the same position. -/
theorem exists_of_read {found : Option (List Method)} (hr : read moduleName limit options b p = (.ok found, q)) :
    ∃ n r, countProcedures limit b p = (.ok n, r) ∧
      if n = 0 then found = none ∧ q = r
      else ∃ methods, found = some methods ∧ scan limit (gather moduleName limit options) [] b p = (.ok methods, q) := by
  obtain ⟨_, _, hposition, hr⟩ := exists_of_bind hr
  cases hposition
  obtain ⟨n, r, hcount, hr⟩ := exists_of_bind hr
  refine ⟨n, r, hcount, ?_⟩
  by_cases hn : n = 0
  · rw [if_pos hn] at hr ⊢
    obtain ⟨rfl, rfl⟩ := of_pure hr
    exact ⟨rfl, rfl⟩
  · rw [if_neg hn] at hr ⊢
    obtain ⟨_, _, hseek, hrest⟩ := exists_of_bind hr
    obtain ⟨_, rfl⟩ := of_seek hseek
    obtain ⟨methods, _, hscan, hfound⟩ := exists_of_bind hrest
    obtain ⟨rfl, rfl⟩ := of_pure hfound
    exact ⟨methods, rfl, hscan⟩

/-- A module whose methods are read has been walked twice from the same position. -/
theorem parts_of_read (hr : read moduleName limit options b p = (.ok (some methods), q)) :
    ∃ n r, countProcedures limit b p = (.ok n, r) ∧
      scan limit (gather moduleName limit options) [] b p = (.ok methods, q) := by
  obtain ⟨n, r, hcount, hfound⟩ := exists_of_read hr
  split at hfound
  · cases hfound.1
  · obtain ⟨_, hsome, hscan⟩ := hfound
    cases hsome
    exact ⟨n, r, hcount, hscan⟩

/-- A procedure that is decoded has its record and its method read, whose body stops in the range, and the answer names the
position behind it. -/
theorem exists_of_gather {h : RecordHeader} {resume : Resume} {r : Nat}
    (hh : gather moduleName limit options h methods b (h.offset + 4) = (.ok (resume, methods'), r))
    (hk : h.kind.isProcedure = true) :
    ∃ record c m, ProcedureRecord.read h options.readNames b (h.offset + 4) = (.ok record, c) ∧
      h.checkedEnd record.stop limit = .ok record.stop.toNat ∧
      Method.read moduleName options h record b h.stop = (.ok m, resume.position h) ∧ methods' = methods ++ [m] := by
  rw [gather, if_pos hk] at hh
  obtain ⟨record, c, hfields, hh⟩ := exists_of_bind hh
  obtain ⟨stop, _, hcheck, hh⟩ := exists_of_bind hh
  obtain ⟨hended, rfl⟩ := of_check hcheck
  obtain ⟨rfl, _, _⟩ := RecordHeader.of_checkedEnd hended
  obtain ⟨_, _, hseek, hh⟩ := exists_of_bind hh
  obtain ⟨_, rfl⟩ := of_seek hseek
  obtain ⟨m, _, hmethod, hh⟩ := exists_of_bind hh
  obtain ⟨_, _, hposition, hh⟩ := exists_of_bind hh
  cases hposition
  obtain ⟨hpair, _⟩ := of_pure hh
  cases hpair
  exact ⟨record, c, m, hfields, hended, hmethod, rfl⟩

/-- A record that is no procedure is stepped over by the second walk. -/
theorem eq_of_gather {h : RecordHeader} {resume : Resume} {c r : Nat}
    (hh : gather moduleName limit options h methods b c = (.ok (resume, methods'), r)) (hk : h.kind.isProcedure = false) :
    resume = .afterRecord ∧ methods' = methods := by
  rw [gather, if_neg (by simp [hk])] at hh
  obtain ⟨hpair, _⟩ := of_pure hh
  cases hpair
  exact ⟨rfl, rfl⟩

/-- A step of the second walk over a procedure reads its record and its method, whose body stops in the range. -/
theorem exists_of_step {h : RecordHeader} (step : ScanStep limit (gather moduleName limit options) b p methods h q methods')
    (hk : h.kind.isProcedure = true) :
    ∃ record r m, ProcedureRecord.read h options.readNames b (h.offset + 4) = (.ok record, r) ∧
      h.checkedEnd record.stop limit = .ok record.stop.toNat ∧
      Method.read moduleName options h record b h.stop = (.ok m, q) ∧ methods' = methods ++ [m] := by
  obtain ⟨resume, c, hh, ht⟩ := step.handled
  obtain rfl := step.bounds.1
  obtain ⟨rfl, _⟩ := Resume.of_target ht
  exact exists_of_gather hh hk

/-- A step of the second walk over a record that is no procedure goes on behind it. -/
theorem eq_of_step {h : RecordHeader} (step : ScanStep limit (gather moduleName limit options) b p methods h q methods')
    (hk : h.kind.isProcedure = false) : q = h.stop ∧ methods' = methods := by
  obtain ⟨resume, c, hh, ht⟩ := step.handled
  obtain ⟨rfl, hsame⟩ := eq_of_gather hh hk
  exact ⟨(Resume.of_target ht).1, hsame⟩

/-- The method of a procedure that is met in a walk that succeeds is read, and its terminator is accepted in the range. -/
theorem exists_of_met {r : Nat} {hs : List RecordHeader}
    (run : Scanned limit (gather moduleName limit options) b p methods hs methods' r) {h : RecordHeader} (met : h ∈ hs)
    (kind : h.kind.isProcedure = true) {record : ProcedureRecord} {c : Nat}
    (fields : ProcedureRecord.read h options.readNames b (h.offset + 4) = (.ok record, c)) :
    ∃ m q, Method.read moduleName options h record b h.stop = (.ok m, q) ∧
      h.checkedEnd record.stop limit = .ok record.stop.toNat := by
  obtain ⟨_, _, _, _, step⟩ := run.exists_step_of_mem met
  obtain ⟨_, _, m, hfields, ended, hmethod, _⟩ := exists_of_step step kind
  rw [fields] at hfields
  cases hfields
  exact ⟨m, _, hmethod, ended⟩

/-- Each body that the decoding of a module reaches has been read and has its terminator in the buffer, if the decoding
succeeds. -/
theorem exists_of_reaches (hr : read moduleName limit options b p = (.ok (some methods), q)) {site : BodySite}
    (hs : Reaches moduleName limit options b p site) :
    ∃ t body, site.Read options.maxScopeDepth b t body ∧ site.stop + terminatorSize ≤ b.size := by
  obtain ⟨met, kind, fields, inside⟩ := hs
  obtain ⟨_, _, _, hscan⟩ := parts_of_read hr
  obtain ⟨_, _, hmethod, _⟩ := exists_of_met (scanned_of_scan hscan) met kind fields
  obtain ⟨_, _, hprocedure, hsize, _⟩ := BodySite.read_of_method hmethod
  obtain ⟨t, body, hread, hstop⟩ := hprocedure.exists_of_inside inside
  exact ⟨t, body, hread, Nat.le_trans (Nat.add_le_add_right hstop terminatorSize) hsize⟩

/-- A procedure of a name with nothing in it. -/
def sampleShape (name : String) : ProcedureShape where
  isGlobal := false
  length := 20
  debugStart := 0
  debugEnd := 0
  token := ⟨0x06000001⟩
  address := 0
  flags := ⟨0⟩
  returnRegister := 0
  name
  entries := []

/-- The record of that procedure, with its terminator at a position. -/
def sampleRecord (name : String) (stop : UInt32) : List UInt8 :=
  Layout.record .localProcedure ((sampleShape name).fields stop)

/-- A procedure with a block that holds a vendor record whose identifier is not known, and behind the block a vendor record with the
known identifier. -/
def sampleWithVendors : Buffer where
  bytes := (sampleRecord "M" 122 ++ Layout.record .block (Entry.blockFields 0 92 4 0 1 "") ++
    Layout.record .vendor (List.replicate 16 0 ++ Layout.word32 0 ++ Layout.utf16 "") ++ Layout.terminator ++
    Layout.record .vendor (ProcedureEntry.vendorFields "") ++ Layout.terminator).toArray
  size_lt := by
    simp [sampleRecord, sampleShape, Layout.record, ProcedureShape.fields, Entry.blockFields, ProcedureEntry.vendorFields,
      Layout.terminator, Layout.utf8, Layout.utf16, Utf8.encode]
    decide

/-- That procedure decodes to a method with one block. -/
theorem read_sampleWithVendors : ∃ m q, read "M" 126 {} sampleWithVendors 0 = (.ok (some [m]), q) ∧ m.name = some "M" ∧
    ∃ s, m.blocks = [s] := by
  have hmethods : (read "M" 126 {} sampleWithVendors 0).1.toOption.map
      (Option.map (List.map fun m => (m.name, m.blocks.length))) = some (some [(some "M", 1)]) := by decide +kernel
  obtain ⟨methods, q, hr, hparts⟩ := exists_of_some_answer hmethods
  obtain ⟨m, rfl, hm⟩ := List.map_eq_singleton_iff.mp hparts
  obtain ⟨hname, hlength⟩ := Prod.mk.inj hm
  exact ⟨m, q, hr, hname, List.length_eq_one_iff.mp hlength⟩

/-- The body of that procedure and that of the block in it are reached, and a vendor record is met in each of them. The identifier
of the one in the block is not the known one. -/
theorem reaches_sampleWithVendors : Reaches "M" 126 {} sampleWithVendors 0 ⟨0, 0, 43, 122⟩ ∧
    ⟨.vendor, 24, 96, 122⟩ ∈ (BodySite.gathering ⟨0, 0, 43, 122⟩ 128 sampleWithVendors).visited ∧
    Reaches "M" 126 {} sampleWithVendors 0 ⟨0, 1, 66, 92⟩ ∧
    ⟨.vendor, 24, 66, 92⟩ ∈ (BodySite.gathering ⟨0, 1, 66, 92⟩ 128 sampleWithVendors).visited ∧
    sampleWithVendors.slice 70 86 ≠ Guid.managedMetadata.bytes.toList := by
  have hprocedure : (⟨.localProcedure, 41, 0, 43⟩ : RecordHeader) ∈ (gathering "M" 126 {} sampleWithVendors 0).visited := by
    decide +kernel
  have hblock : (⟨.block, 21, 43, 66⟩ : RecordHeader) ∈
      (BodySite.gathering ⟨0, 0, 43, 122⟩ 128 sampleWithVendors).visited := by decide +kernel
  have hreached : Reaches "M" 126 {} sampleWithVendors 0 ⟨0, 0, 43, 122⟩ :=
    reaches_of_answer 0 122 hprocedure rfl (by decide +kernel)
  exact ⟨hreached, by decide +kernel, hreached.ofBlock 92 hblock rfl (by decide +kernel), by decide +kernel, by decide +kernel⟩

end ModuleSymbols

end ManagedSymbols
