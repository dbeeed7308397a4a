import ManagedSymbols.Proofs.Body.Measure
import ManagedSymbols.Proofs.Module.Counts

/-!
# Modules are read without a trap

The counters of a measure and of the counting walk never exceed the position, and no block is nested deeper than its position is
far from the start, so every sum on the way is a word. Measures, bodies, blocks at every depth, methods and modules are therefore
read safely, and a module that is not read has a fault of the data to blame, never an operation of the machine
(`ModuleSymbols.read_ne_trap`).
-/

namespace ManagedSymbols

open Reader

/-! ## Bodies -/

section Bodies

variable {b : Buffer} {limit c p : Nat} {h : RecordHeader} {readBlock : BlockRecord → Reader Block}

/-- A record of a body is gathered safely if blocks are read safely behind it. -/
theorem Body.gather_safeAt
    (inner : ∀ record q, q ≤ b.size → c < q → q ≤ record.stop.toNat → SafeAt b q (readBlock record) fun _ _ => True)
    (hf : RecordHeader.frame limit b c = (.ok h, c + 4)) (body : Body) :
    SafeAt b (c + 4) (Body.gather readBlock limit h body) fun _ _ => True := by
  obtain ⟨_, hstop, _, _, _, hinside⟩ := RecordHeader.of_frame hf
  cases hkind : h.kind with
  | block =>
    rw [Body.gather, hkind]
    refine (BlockRecord.read_safe h b _ hinside).bind fun record q hq _ => ?_
    refine (SafeAt.check hq RecordHeader.ofData_of_checkedEnd).bind fun stop q hq hended => ?_
    obtain ⟨_, hbehind, _⟩ := RecordHeader.of_checkedEnd hended.1
    refine (SafeAt.seek h.stop hq).bind ?_
    rintro _ _ hq rfl
    refine (inner record _ hq (by omega) hbehind).bind fun block q hq _ => ?_
    exact (SafeAt.position hq).bind fun _ q hq _ => .pure hq trivial
  | slot =>
    rw [Body.gather, hkind]
    exact ((Safe.check RecordHeader.ofData_of_fixedLayout).bind fun _ => Slot.read_safe.bind fun _ => Safe.pure _) b _ hinside
  | constant =>
    rw [Body.gather, hkind]
    exact ((Safe.check RecordHeader.ofData_of_fixedLayout).bind fun _ => Constant.read_safe.bind fun _ => Safe.pure _) b _
      hinside
  | usingNamespace =>
    rw [Body.gather, hkind]
    exact (Safe.utf8.bind fun _ => Safe.pure _) b _ hinside
  | terminator | vendor | globalProcedure | localProcedure | unknown =>
    rw [Body.gather, hkind]
    exact Safe.pure _ b _ hinside

/-- A record of the body of a method is gathered safely if blocks are read safely behind it. -/
theorem MethodBody.gather_safeAt
    (inner : ∀ record q, q ≤ b.size → c < q → q ≤ record.stop.toNat → SafeAt b q (readBlock record) fun _ _ => True)
    (hf : RecordHeader.frame limit b c = (.ok h, c + 4)) (m : MethodBody) :
    SafeAt b (c + 4) (MethodBody.gather readBlock limit h m) fun _ _ => True := by
  by_cases hv : h.kind = .vendor
  · have hinside := RecordHeader.of_frame hf
    rw [gather_vendor hv]
    exact ((VendorPayload.read_safe h).bind fun _ => Safe.pure _) b _ hinside.2.2.2.2.2
  · rw [gather_of_ne_vendor hv]
    exact (Body.gather_safeAt inner hf m.body).bind fun _ q hq _ => .pure hq trivial

/-- A block is read safely if its body does not start behind its terminator and it is not nested deeper than its position is far
from the start. -/
theorem Block.read_safeAt (address : UInt32) (maxDepth depth : Nat) (record : BlockRecord) {p : Nat} (hp : p ≤ b.size)
    (hdepth : depth ≤ p) (hstart : p ≤ record.stop.toNat) :
    SafeAt b p (Block.read address maxDepth depth record) fun _ _ => True := by
  have hsize := b.size_lt
  rw [Block.read]
  split
  · next hd =>
    refine (SafeAt.require (e := .malformed _) _ hp trivial).bind ?_
    rintro _ _ hp ⟨-, rfl⟩
    refine (Tally.measure_safeAt _ hp).bind ?_
    rintro _ start hp ⟨rfl, -⟩
    have hnested : ∀ nested q, q ≤ b.size → start < q → q ≤ nested.stop.toNat →
        SafeAt b q (Block.readNested address maxDepth depth nested) fun _ _ => True := by
      -- A nested block starts behind its record, so it is one deeper and at least one byte farther from the start.
      intro nested q hq hbehind hstart
      have hword : depth + 1 < 0x10000000000000000 := by
        rw [Buffer.size] at hq
        omega
      refine (SafeAt.fits hword hq).bind ?_
      rintro _ q hq ⟨rfl, rfl⟩
      exact Block.read_safeAt address maxDepth (depth + 1) nested hq (by omega) hstart
    have hscan : SafeAt b start (scan record.stop.toNat
        (Body.gather (Block.readNested address maxDepth depth) record.stop.toNat) {}) _ :=
      scan_safeAt_of_handler (fun hf hc => Body.gather_safeAt (fun nested q hq hbehind =>
        hnested nested q hq (Nat.lt_of_le_of_lt hc hbehind)) hf _) hp
    refine hscan.bind ?_
    rintro body _ hstop rfl
    -- The scan has stopped at the terminator, because it has started in front of it.
    rw [if_pos hstart] at hstop ⊢
    exact (expectEnd_safeAt .block hstop).bind fun _ q hq _ => .pure hq trivial
  · exact Safe.fail (e := .recursionLimit _) trivial b p hp
termination_by maxDepth + 1 - depth
decreasing_by omega

end Bodies

/-! ## Methods -/

namespace Method

variable {b : Buffer} {h : RecordHeader}

/-- A procedure that lies elsewhere or is linked is a fault of the data. -/
theorem ofData_of_checkRecord {record : ProcedureRecord} (e : Fault) (hc : checkRecord h record = .error e) : e.OfData := by
  unfold checkRecord at hc
  split at hc
  · cases hc
    trivial
  · split at hc
    · cases hc
      trivial
    · cases hc

/-- The body of a procedure is read safely from behind its record. -/
theorem read_safeAt (moduleName : String) (options : Options) (record : ProcedureRecord) (hstop : h.stop ≤ b.size) :
    SafeAt b h.stop (Method.read moduleName options h record) fun _ _ => True := by
  refine (SafeAt.check hstop ofData_of_checkRecord).bind ?_
  rintro _ _ hp ⟨-, rfl⟩
  refine (SafeAt.size hp).bind ?_
  rintro _ _ hp ⟨rfl, rfl⟩
  refine (SafeAt.check hp RecordHeader.ofData_of_checkedEnd).bind ?_
  rintro limit _ hp ⟨hended, rfl⟩
  obtain ⟨_, hstart, _⟩ := RecordHeader.of_checkedEnd hended
  refine (Tally.measure_safeAt limit hp).bind ?_
  rintro tally _ hp ⟨rfl, -⟩
  have hscan : SafeAt b h.stop (scan limit
      (MethodBody.gather (Block.read record.offset options.maxScopeDepth 1) limit) {}) _ :=
    scan_safeAt_of_handler (fun hf _ => MethodBody.gather_safeAt (fun nested _ hq hbehind =>
      Block.read_safeAt record.offset options.maxScopeDepth 1 nested hq (by omega)) hf _) hp
  refine hscan.bind ?_
  rintro m _ hend rfl
  rw [if_pos (by omega)] at hend ⊢
  exact (expectEnd_safeAt h.kind hend).bind fun _ q hq _ => .pure hq trivial

end Method

/-! ## Modules -/

namespace ModuleSymbols

variable {moduleName : String} {limit c p : Nat} {options : Options} {b : Buffer} {h : RecordHeader}

/-- A record of a module is counted safely if the count does not exceed its position, and then the new one does not exceed the
position where the walk goes on. -/
theorem countProcedure_safeAt {n : Nat} (hf : RecordHeader.frame limit b c = (.ok h, c + 4)) (hn : n ≤ c) :
    SafeAt b (c + 4) (countProcedure limit h n) fun found _ => ∀ q, found.1.target h limit = .ok q → found.2 ≤ q := by
  obtain ⟨_, hstop, _, _, _, hinside⟩ := RecordHeader.of_frame hf
  have hafter (m : Nat) (hm : m ≤ n + 1) (resume : Resume) : ∀ q, resume.target h limit = .ok q → m ≤ q := by
    intro q hq
    have := Resume.stop_le_target hq
    omega
  have hword : n + 1 < 0x10000000000000000 := by
    have hsize := b.size_lt
    rw [Buffer.size] at hinside
    omega
  rw [countProcedure]
  split
  · refine (h.declaredEnd_safe limit b _ hinside).bind fun stop q hq _ => ?_
    refine (SafeAt.fits hword hq).bind ?_
    rintro _ _ hq ⟨rfl, rfl⟩
    exact .pure hq (hafter _ (Nat.le_refl _) _)
  · exact .pure hinside (hafter _ (Nat.le_succ n) _)

/-- A record of a module is decoded safely. -/
theorem gather_safeAt (hf : RecordHeader.frame limit b c = (.ok h, c + 4)) (methods : List Method) :
    SafeAt b (c + 4) (gather moduleName limit options h methods) fun _ _ => True := by
  have hinside := (RecordHeader.of_frame hf).2.2.2.2.2
  rw [gather]
  split
  · refine (ProcedureRecord.read_safe h options.readNames b _ hinside).bind fun record q hq _ => ?_
    refine (SafeAt.check hq RecordHeader.ofData_of_checkedEnd).bind fun _ q hq _ => ?_
    refine (SafeAt.seek h.stop hq).bind ?_
    rintro _ _ hq rfl
    refine (Method.read_safeAt moduleName options record hq).bind fun m q hq _ => ?_
    exact (SafeAt.position hq).bind fun _ q hq _ => .pure hq trivial
  · exact .pure hinside trivial

/-- A module is read safely. -/
theorem read_safe (moduleName : String) (limit : Nat) (options : Options) : Safe (read moduleName limit options) := by
  intro b p hp
  refine (Safe.position b p hp).bind fun start q hq _ => ?_
  have hcount : SafeAt b q (countProcedures limit) fun n c => n ≤ c ∧ c = if q ≤ limit then limit else q :=
    scan_safeAt (fun hf hn => countProcedure_safeAt hf hn) hq (Nat.zero_le q)
  refine hcount.bind fun n q hq _ => ?_
  split
  · exact .pure hq trivial
  · refine (SafeAt.seek start hq).bind ?_
    rintro _ _ hq rfl
    have hgather : SafeAt b _ (scan limit (gather moduleName limit options) []) _ :=
      scan_safeAt_of_handler (fun hf _ => gather_safeAt hf _) hq
    exact hgather.bind fun methods q hq _ => .pure hq trivial

/-- Behind the end of the buffer nothing is read: either the limit is there as well, or the first record is out of bounds. -/
theorem read_of_size_lt (moduleName : String) (limit : Nat) (options : Options) (hp : b.size < p) :
    read moduleName limit options b p = if p < limit then (.error .outOfBounds, p) else (.ok none, p) := by
  have hposition : position b p = (.ok p, p) := rfl
  have hframe : RecordHeader.frame limit b p = (.error .outOfBounds, p) := by
    have hword : u16 b p = (.error .outOfBounds, p) := by rw [run_u16, if_neg (by omega)]
    rw [RecordHeader.frame, RecordHeader.read, run_bind, run_bind_ok hposition, run_bind_error hword]
  rw [read, run_bind_ok hposition]
  by_cases hlimit : p < limit
  · have hcount : countProcedures limit b p = (.error .outOfBounds, p) := by
      rw [countProcedures, scan, scanRun, if_pos hlimit]
      split
      · next e q hf =>
        rw [hframe] at hf
        cases hf
        rfl
      · next h q hf =>
        rw [hframe] at hf
        cases hf
    rw [if_pos hlimit, run_bind_error hcount]
  · have hcount : countProcedures limit b p = (.ok 0, p) := by
      rw [countProcedures, scan, scanRun_of_le (Nat.le_of_not_lt hlimit)]
      rfl
    rw [if_neg hlimit, run_bind_ok hcount, if_pos rfl, run_pure]

/-- The fault of a module that is not read is one of the data. -/
theorem ofData_of_read {e : Fault} {q : Nat} (hr : read moduleName limit options b p = (.error e, q)) : e.OfData := by
  by_cases hp : p ≤ b.size
  · exact ((read_safe moduleName limit options b p hp).ofData_of_error hr).2
  · rw [read_of_size_lt moduleName limit options (Nat.lt_of_not_le hp)] at hr
    split at hr
    · cases hr
      trivial
    · cases hr

/-- Whatever bytes a module or a blob of metadata is read from, and under whatever limit and options, no operation of the machine is
without a result: no slice leaves its sequence, no sum or difference leaves the words, and nothing is divided by zero. A read that
starts in the buffer leaves the cursor in it, and the blocks of a body that has been measured are few enough for a root beside them
to be counted, too. -/
theorem read_ne_trap (moduleName : String) (limit : Nat) (options : Options) (b : Buffer) (p : Nat) :
    (∀ cause, (read moduleName limit options b p).1 ≠ .error (.trap cause)) ∧
      (∀ cause, MetadataItem.ofBlob b ≠ .error (.trap cause)) ∧
      (p ≤ b.size → (read moduleName limit options b p).2 ≤ b.size ∧
        ∀ stop t q, Tally.measure stop b p = (.ok t, q) → t.scopes + 1 < 0x10000000000000000) := by
  refine ⟨?_, ?_, ?_⟩
  · intro cause htrap
    exact ofData_of_read (Prod.ext htrap rfl)
  · intro cause htrap
    rw [MetadataItem.ofBlob] at htrap
    split at htrap
    · cases htrap
    · exact ((MetadataItem.readBlob_safe b 0 (Nat.zero_le _)).ofData_of_error (Prod.ext htrap rfl)).2
  · intro hp
    refine ⟨(read_safe moduleName limit options b p hp).1, ?_⟩
    intro stop t q hm
    have hscopes := ((Tally.measure_safeAt stop hp).post_of_ok hm).2.2.scopes
    have hsize := b.size_lt
    rw [Buffer.size] at hscopes
    omega

end ModuleSymbols

end ManagedSymbols
