import ManagedSymbols.Layout.Metadata
import ManagedSymbols.Method.Decode
import ManagedSymbols.Proofs.Body.Steps

/-!
# What the body of a method gathers

A record of the body of a method is gathered as in any body unless a vendor made it, so steps of the one scan are steps of the
other (`ScanStep.ofBody`). Of the metadata items that a method takes in the last one of each kind counts
(`MethodMetadata.applyAll_eq`).
-/

namespace ManagedSymbols

open Reader

/-- Of the items taken in, the last one of each kind counts, and where there is none, what was there before stays. -/
theorem MethodMetadata.applyAll_eq (m : MethodMetadata) (items : List MetadataItem) :
    m.applyAll items = {
      usingCounts := (items.filterMap MetadataItem.usingCounts?).getLast?.getD m.usingCounts
      forwardToken := (items.filterMap MetadataItem.forwardToken?).getLast?.or m.forwardToken
      forwardedModuleToken := (items.filterMap MetadataItem.forwardedModuleToken?).getLast?.or m.forwardedModuleToken
      iteratorClass := (items.filterMap MetadataItem.iteratorClass?).getLast?.or m.iteratorClass
      iteratorRanges := (items.filterMap MetadataItem.iteratorRanges?).getLast?.or m.iteratorRanges
      dynamicLocals := (items.filterMap MetadataItem.dynamicLocals?).getLast?.getD m.dynamicLocals
      synchronization := m.synchronization } := by
  induction items generalizing m with
  | nil => simp [applyAll]
  | cons item rest ih =>
    have happly : m.applyAll (item :: rest) = (m.apply item).applyAll rest := rfl
    rw [happly, ih]
    cases item <;>
      simp [apply, MetadataItem.usingCounts?, MetadataItem.forwardToken?, MetadataItem.forwardedModuleToken?,
        MetadataItem.iteratorClass?, MetadataItem.iteratorRanges?, MetadataItem.dynamicLocals?, List.filterMap_cons,
        List.getLast?_cons]

/-- Items in two parts are taken in one part after the other. -/
theorem MethodMetadata.applyAll_append (m : MethodMetadata) (items rest : List MetadataItem) :
    m.applyAll (items ++ rest) = (m.applyAll items).applyAll rest :=
  List.foldl_append

/-- Items say nothing of the state machine of an async method. -/
theorem MethodMetadata.synchronization_applyAll (m : MethodMetadata) (items : List MetadataItem) :
    (m.applyAll items).synchronization = m.synchronization := by
  rw [applyAll_eq]

/-- A body is tallied to have locals if it has a slot, a constant or a namespace. -/
theorem Body.hasLocals_tally (body : Body) :
    body.tally.hasLocals = true ↔ ¬ (body.slots = [] ∧ body.constants = [] ∧ body.usedNamespaces = []) := by
  obtain ⟨_, slots, constants, names, _⟩ := body
  cases slots <;> cases constants <;> cases names <;> simp [Tally.hasLocals, Body.tally]

namespace MethodBody

variable {readBlock : BlockRecord → Reader Block} {limit : Nat} {h : RecordHeader}

/-- A vendor record is taken in. -/
theorem gather_vendor (hv : h.kind = .vendor) (m : MethodBody) :
    gather readBlock limit h m = do
      let payload ← VendorPayload.read h
      return (.afterRecord, m.applyPayload payload) := by
  rw [gather, hv]

/-- A record that no vendor made is gathered as in any body. -/
theorem gather_of_ne_vendor (hv : h.kind ≠ .vendor) (m : MethodBody) :
    gather readBlock limit h m = do
      let (resume, body) ← Body.gather readBlock limit h m.body
      return (resume, { m with body }) := by
  rw [gather]
  split
  · next hk => exact absurd hk hv
  · rfl

end MethodBody

/-- A step over a record that no vendor made is a step of the method's scan. -/
theorem ScanStep.ofBody {readBlock : BlockRecord → Reader Block} {limit p q : Nat} {b : Buffer} {m : MethodBody} {body : Body}
    {h : RecordHeader} (step : ScanStep limit (Body.gather readBlock limit) b p m.body h q body) (hv : h.kind ≠ .vendor) :
    ScanStep limit (MethodBody.gather readBlock limit) b p m h q { m with body } where
  inside := step.inside
  framed := step.framed
  handled := by
    obtain ⟨resume, r, hh, ht⟩ := step.handled
    refine ⟨resume, r, ?_, ht⟩
    rw [MethodBody.gather_of_ne_vendor hv, run_bind_ok hh]
    rfl
  landed := step.landed

namespace MethodBody

variable {readBlock : BlockRecord → Reader Block} {limit p q r : Nat} {b : Buffer} {m m' : MethodBody}

/-- A step of the method's scan is a step over the body alone, which vendor records leave as it is. -/
theorem body_step {h : RecordHeader} (step : ScanStep limit (gather readBlock limit) b p m h q m') :
    ScanStep limit (Body.gather readBlock limit) b p m.body h q m'.body where
  inside := step.inside
  framed := step.framed
  handled := by
    obtain ⟨resume, r, hh, ht⟩ := step.handled
    by_cases hv : h.kind = .vendor
    · rw [gather_vendor hv] at hh
      obtain ⟨payload, _, _, hh⟩ := exists_of_bind hh
      obtain ⟨hpair, _⟩ := of_pure hh
      cases hpair
      refine ⟨.afterRecord, p + 4, ?_, ht⟩
      rw [Body.gather_other (by simp [hv]) (by simp [hv]) (by simp [hv]) (by simp [hv])]
      cases payload <;> rfl
    · rw [gather_of_ne_vendor hv] at hh
      obtain ⟨⟨resume', body⟩, s, hbody, hh⟩ := exists_of_bind hh
      obtain ⟨hpair, _⟩ := of_pure hh
      cases hpair
      exact ⟨resume, s, hbody, ht⟩
  landed := step.landed

/-- A method's scan is a scan over the body alone. -/
theorem scanned_body {hs : List RecordHeader} (run : Scanned limit (gather readBlock limit) b p m hs m' r) :
    Scanned limit (Body.gather readBlock limit) b p m.body hs m'.body r := by
  induction run with
  | done behind => exact .done behind
  | step first _ ih => exact .step (body_step first) ih

end MethodBody

/-- A forest with longer lengths has as many trees. -/
theorem Scope.length_widenAll (scopes : List Scope) : (Scope.widenAll scopes).length = scopes.length := by
  induction scopes with
  | nil => rfl
  | cons s rest ih => rw [Scope.widenAll, List.length_cons, List.length_cons, ih]

namespace Method

/-- Lengths as Visual Basic means them change neither the root nor what the body declares, nor how many blocks there are. -/
theorem forVisualBasic_parts (m : Method) :
    m.forVisualBasic.root = m.root ∧ m.forVisualBasic.slots = m.slots ∧ m.forVisualBasic.constants = m.constants ∧
      m.forVisualBasic.usedNamespaces = m.usedNamespaces ∧ m.forVisualBasic.blocks.length = m.blocks.length := by
  rw [forVisualBasic]
  split
  · exact ⟨rfl, rfl, rfl, rfl, rfl⟩
  · exact ⟨rfl, rfl, rfl, rfl, Scope.length_widenAll m.blocks⟩

/-- A method that is read has had its body measured and gathered up to its terminator, and is made of what is gathered; the cursor
is left four bytes behind the start of the terminator. -/
theorem exists_body_of_read {moduleName : String} {options : Options} {h : RecordHeader} {record : ProcedureRecord} {b : Buffer}
    {p q : Nat} {m : Method} (hr : Method.read moduleName options h record b p = (.ok m, q)) :
    ∃ t found, Tally.measure record.stop.toNat b p = (.ok t, p) ∧
      scan record.stop.toNat (MethodBody.gather (Block.readNested record.offset options.maxScopeDepth 0) record.stop.toNat) {} b p =
        (.ok found, record.stop.toNat) ∧
      (m = if options.visualBasic then (ofBody moduleName record t.hasLocals found).forVisualBasic
        else ofBody moduleName record t.hasLocals found) ∧
      RecordKind.ofCode (b.word16 (record.stop.toNat + 2)) = .terminator ∧ q = record.stop.toNat + terminatorSize ∧
      q ≤ b.size := by
  obtain ⟨_, _, hcheck, hr⟩ := exists_of_bind hr
  obtain ⟨_, rfl⟩ := of_check hcheck
  obtain ⟨_, _, hsize, hr⟩ := exists_of_bind hr
  cases hsize
  obtain ⟨stop, _, hended, hr⟩ := exists_of_bind hr
  obtain ⟨hchecked, rfl⟩ := of_check hended
  obtain ⟨rfl, _, _⟩ := RecordHeader.of_checkedEnd hchecked
  obtain ⟨t, _, hmeasure, hr⟩ := exists_of_bind hr
  obtain ⟨rfl, _⟩ := Tally.of_measure hmeasure
  obtain ⟨found, _, hscan, hr⟩ := exists_of_bind hr
  obtain ⟨_, _, hend, hr⟩ := exists_of_bind hr
  obtain ⟨rfl, hkind, rfl, hinside⟩ := of_expectEnd hend
  obtain ⟨rfl, rfl⟩ := of_pure hr
  exact ⟨t, found, hmeasure, hscan, rfl, hkind, rfl, hinside⟩

/-- A method that is read has had its body measured and gathered up to its terminator. It has a root if the measure has found
something, and keeps what is gathered; the cursor is left four bytes behind the start of the terminator. -/
theorem parts_of_read {moduleName : String} {options : Options} {h : RecordHeader} {record : ProcedureRecord} {b : Buffer}
    {p q : Nat} {m : Method} (hr : Method.read moduleName options h record b p = (.ok m, q)) :
    ∃ t body, Tally.measure record.stop.toNat b p = (.ok t, p) ∧
      scan record.stop.toNat (Body.gather (Block.readNested record.offset options.maxScopeDepth 0) record.stop.toNat) {} b p =
        (.ok body, record.stop.toNat) ∧
      (m.root.isSome = t.hasLocals ∧ m.slots = body.slots ∧ m.constants = body.constants ∧
        m.usedNamespaces = body.usedNamespaces ∧ m.blocks.length = body.scopes.length) ∧
      RecordKind.ofCode (b.word16 (record.stop.toNat + 2)) = .terminator ∧ q = record.stop.toNat + terminatorSize ∧
      q ≤ b.size := by
  obtain ⟨t, found, hmeasure, hscan, rfl, hkind, rfl, hinside⟩ := exists_body_of_read hr
  refine ⟨t, found.body, hmeasure, (MethodBody.scanned_body (scanned_of_scan hscan)).scan_eq, ?_, hkind, rfl, hinside⟩
  have hroot : (ofBody moduleName record t.hasLocals found).root.isSome = t.hasLocals := by
    rw [ofBody]
    cases t.hasLocals <;> rfl
  cases options.visualBasic with
  | false => exact ⟨hroot, rfl, rfl, rfl, rfl⟩
  | true =>
    obtain ⟨hkept, hrest⟩ := (ofBody moduleName record t.hasLocals found).forVisualBasic_parts
    exact ⟨(congrArg Option.isSome hkept).trans hroot, hrest⟩

end Method

end ManagedSymbols
