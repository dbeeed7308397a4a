import ManagedSymbols.Proofs.Module.Vendors

/-!
# Of the metadata items of one kind the last one counts

Items are taken in one after the other. What they leave in a field that one sort of items sets is told from the list alone
(`LastSets`): the payload of the last item of that sort, or what was there before. So items of different kinds do not touch each other,
skipped items touch nothing, and it does not matter how the items are spread over vendor records. What is attached to a decoded method
comes from all vendor records of its body, in the order of the stream (`Method.metadata_of_read`).
-/

namespace ManagedSymbols

open Reader

/-- What items leave in a field that items of one sort set: the value of the last one of them, or what was there if there is none. -/
def LastSets {α β : Type} (item : α → MetadataItem) (value : α → β) (items : List MetadataItem) (before after : β) : Prop :=
  (∃ front a back, items = front ++ item a :: back ∧ (∀ c, item c ∉ back) ∧ after = value a) ∨
    (∀ c, item c ∉ items) ∧ after = before

namespace MetadataItem

variable {α β : Type} {item : α → MetadataItem} {payload? : MetadataItem → Option α}

/-- An item that is not skipped is taken in. -/
def isTaken : MetadataItem → Bool
  | skipped .. => false
  | _ => true

/-- The items of a kind that are taken in, in their order. -/
def ofKind (kind : MetadataKind) (items : List MetadataItem) : List MetadataItem :=
  items.filter fun i => i.isTaken && i.kind = kind

/-- A payload that only items of one sort have, each its own. -/
def PayloadOf (item : α → MetadataItem) (payload? : MetadataItem → Option α) : Prop :=
  ∀ i a, payload? i = some a ↔ i = item a

theorem payloadOf_usingCounts? : PayloadOf usingInfo usingCounts? := by
  intro i a
  cases i <;> simp [usingCounts?]

theorem payloadOf_forwardToken? : PayloadOf forwardInfo forwardToken? := by
  intro i a
  cases i <;> simp [forwardToken?]

theorem payloadOf_forwardedModuleToken? : PayloadOf forwardToModuleInfo forwardedModuleToken? := by
  intro i a
  cases i <;> simp [forwardedModuleToken?]

theorem payloadOf_iteratorClass? : PayloadOf forwardIterator iteratorClass? := by
  intro i a
  cases i <;> simp [iteratorClass?]

theorem payloadOf_iteratorRanges? : PayloadOf iteratorLocals iteratorRanges? := by
  intro i a
  cases i <;> simp [iteratorRanges?]

theorem payloadOf_dynamicLocals? : PayloadOf dynamicLocals dynamicLocals? := by
  intro i a
  cases i <;> simp [dynamicLocals?]

/-- The last payload of a list of items is what the last item of its sort sets. -/
theorem PayloadOf.lastSets (h : PayloadOf item payload?) (value : α → β) (items : List MetadataItem) (before : β) :
    LastSets item value items before ((items.filterMap payload?).getLast?.elim before value) := by
  induction items with
  | nil => exact .inr ⟨fun _ => List.not_mem_nil, rfl⟩
  | cons i rest ih =>
    rcases ih with ⟨front, a, back, rfl, hback, hafter⟩ | ⟨hnone, hafter⟩
    · -- an item behind the first one has set the field
      refine .inl ⟨i :: front, a, back, rfl, hback, ?_⟩
      have ha : payload? (item a) = some a := (h _ _).mpr rfl
      rw [← hafter]
      cases hi : payload? i <;> simp [hi, List.getLast?_cons, ha]
    · have hrest : rest.filterMap payload? = [] := by
        refine List.filterMap_eq_nil_iff.mpr fun c hc => Option.eq_none_iff_forall_not_mem.mpr fun a ha => ?_
        exact hnone a ((h c a).mp ha ▸ hc)
      cases hi : payload? i with
      | some a =>
        refine .inl ⟨[], a, rest, ?_, hnone, ?_⟩
        · rw [(h i a).mp hi, List.nil_append]
        · simp [hi, hrest]
      | none =>
        refine .inr ⟨fun c hc => ?_, ?_⟩
        · rcases List.mem_cons.mp hc with rfl | hc
          · rw [(h _ c).mpr rfl] at hi
            cases hi
          · exact hnone c hc
        · simp [hi, hrest]

/-- Only the items of a kind have the payload of that kind. -/
theorem PayloadOf.filterMap_ofKind (h : PayloadOf item payload?) {kind : MetadataKind}
    (hkind : ∀ a, (item a).isTaken = true ∧ (item a).kind = kind) (items : List MetadataItem) :
    (ofKind kind items).filterMap payload? = items.filterMap payload? := by
  rw [ofKind, List.filterMap_filter]
  congr 1
  funext i
  cases hi : payload? i with
  | none => simp
  | some a =>
    obtain ⟨htaken, hkind⟩ := hkind a
    rw [(h i a).mp hi, htaken, hkind]
    simp

end MetadataItem

namespace MethodMetadata

open MetadataItem

/-- Items that have the same items of each kind in the same order, those that are skipped left out, leave the same. -/
theorem applyAll_congr (m : MethodMetadata) {items items' : List MetadataItem}
    (h : ∀ kind, ofKind kind items' = ofKind kind items) : m.applyAll items' = m.applyAll items := by
  have hsame {α : Type} {item : α → MetadataItem} {payload? : MetadataItem → Option α} (hp : PayloadOf item payload?)
      (kind : MetadataKind) (hkind : ∀ a, (item a).isTaken = true ∧ (item a).kind = kind) :
      items'.filterMap payload? = items.filterMap payload? := by
    rw [← hp.filterMap_ofKind hkind, h, hp.filterMap_ofKind hkind]
  rw [applyAll_eq, applyAll_eq, hsame payloadOf_usingCounts? .usingInfo fun _ => ⟨rfl, rfl⟩,
    hsame payloadOf_forwardToken? .forwardInfo fun _ => ⟨rfl, rfl⟩,
    hsame payloadOf_forwardedModuleToken? .forwardToModuleInfo fun _ => ⟨rfl, rfl⟩,
    hsame payloadOf_iteratorClass? .forwardIterator fun _ => ⟨rfl, rfl⟩,
    hsame payloadOf_iteratorRanges? .iteratorLocals fun _ => ⟨rfl, rfl⟩,
    hsame payloadOf_dynamicLocals? .dynamicLocals fun _ => ⟨rfl, rfl⟩]

/-- Of the items taken in, the last one of each kind has set its field. -/
theorem applyAll_lastSets (m : MethodMetadata) (items : List MetadataItem) :
    LastSets .usingInfo id items m.usingCounts (m.applyAll items).usingCounts ∧
      LastSets .forwardInfo some items m.forwardToken (m.applyAll items).forwardToken ∧
      LastSets .forwardToModuleInfo some items m.forwardedModuleToken (m.applyAll items).forwardedModuleToken ∧
      LastSets .forwardIterator some items m.iteratorClass (m.applyAll items).iteratorClass ∧
      LastSets .iteratorLocals some items m.iteratorRanges (m.applyAll items).iteratorRanges ∧
      LastSets .dynamicLocals id items m.dynamicLocals (m.applyAll items).dynamicLocals := by
  have hget {β : Type} (found : Option β) (before : β) : found.getD before = found.elim before id := by
    cases found <;> rfl
  have hor {β : Type} (found before : Option β) : found.or before = found.elim before some := by
    cases found <;> rfl
  rw [applyAll_eq]
  simp only [hget, hor]
  exact ⟨payloadOf_usingCounts?.lastSets .., payloadOf_forwardToken?.lastSets .., payloadOf_forwardedModuleToken?.lastSets ..,
    payloadOf_iteratorClass?.lastSets .., payloadOf_iteratorRanges?.lastSets .., payloadOf_dynamicLocals?.lastSets ..⟩

end MethodMetadata

namespace VendorPayload

/-- The items of a payload. -/
def items : VendorPayload → List MetadataItem
  | metadata items => items
  | _ => []

/-- The state machine that a payload describes. -/
def synchronization? : VendorPayload → Option Synchronization
  | asyncMethod info => some info
  | _ => none

end VendorPayload

/-- Payloads that are attached one after the other leave what all their items leave, and the last state machine among them. -/
theorem MethodMetadata.foldl_attach (m : MethodMetadata) (payloads : List VendorPayload) :
    payloads.foldl attach m = { m.applyAll (payloads.flatMap VendorPayload.items) with
      synchronization := (payloads.filterMap VendorPayload.synchronization?).getLast?.or m.synchronization } := by
  induction payloads generalizing m with
  | nil => rfl
  | cons payload rest ih =>
    rw [List.foldl_cons, ih]
    cases payload with
    | metadata items =>
      simp only [attach, List.flatMap_cons, VendorPayload.items, applyAll_append, synchronization_applyAll]
      rfl
    | asyncMethod info =>
      simp [attach, VendorPayload.items, VendorPayload.synchronization?, applyAll_eq, List.getLast?_cons]
    | other name => rfl

/-- The payloads of the vendor records directly in a body, in the order of the stream. -/
def BodySite.payloads (s : BodySite) (maxDepth : Nat) (b : Buffer) : List VendorPayload :=
  (s.gathering maxDepth b).visited.filterMap (RecordHeader.payload? b)

/-- What is attached to a method that is read is what the items of all vendor records directly in its body leave, taken in the order
of the stream, and the last state machine among them. -/
theorem Method.metadata_of_read {moduleName : String} {options : Options} {h : RecordHeader} {record : ProcedureRecord} {b : Buffer}
    {m : Method} {q : Nat} (hr : Method.read moduleName options h record b h.stop = (.ok m, q)) :
    m.metadata = { ({} : MethodMetadata).applyAll
        (((BodySite.ofProcedure h record).payloads options.maxScopeDepth b).flatMap VendorPayload.items) with
      synchronization :=
        (((BodySite.ofProcedure h record).payloads options.maxScopeDepth b).filterMap VendorPayload.synchronization?).getLast? } := by
  obtain ⟨found, hscanned, hmetadata⟩ := Method.scanned_of_read hr
  rw [hmetadata, MethodBody.metadata_of_scanned hscanned, MethodMetadata.foldl_attach, Option.or_none]
  rfl

namespace MethodBody

open MetadataItem

/-- A vendor record with items changes the metadata of a method and nothing else. -/
theorem applyPayload_metadata (m : MethodBody) (items : List MetadataItem) :
    m.applyPayload (.metadata items) = { m with metadata := m.metadata.applyAll items } :=
  rfl

/-- Vendor records with items are taken in one after the other as one record with all their items. -/
theorem foldl_applyPayload (m : MethodBody) (records : List (List MetadataItem)) :
    (records.map VendorPayload.metadata).foldl applyPayload m = m.applyPayload (.metadata records.flatten) := by
  induction records generalizing m with
  | nil => rfl
  | cons items rest ih =>
    rw [List.map_cons, List.foldl_cons, ih, List.flatten_cons]
    simp only [applyPayload_metadata, MethodMetadata.applyAll_append]

/-- Items that are taken in change nothing but the metadata of a method, and of that not the state machine. Each of the six fields is
set by the last item of its sort, and stays if there is none. Skipped items change nothing, and lists that have the same items of each
kind in the same order leave the same. Items in several vendor records are taken in as if they stood in one. What is attached to a
method that is read is what all items in the vendor records of its body leave in the order of the stream, and the last state machine
among them. -/
theorem applyPayload_lastSets (m : MethodBody) (items : List MetadataItem) :
    ((m.applyPayload (.metadata items)).body = m.body ∧
        (m.applyPayload (.metadata items)).metadata.synchronization = m.metadata.synchronization ∧
        ∀ moduleName record hasRoot, Method.ofBody moduleName record hasRoot (m.applyPayload (.metadata items)) =
          { Method.ofBody moduleName record hasRoot m with metadata := (m.applyPayload (.metadata items)).metadata }) ∧
      (LastSets .usingInfo id items m.metadata.usingCounts (m.applyPayload (.metadata items)).metadata.usingCounts ∧
        LastSets .forwardInfo some items m.metadata.forwardToken (m.applyPayload (.metadata items)).metadata.forwardToken ∧
        LastSets .forwardToModuleInfo some items m.metadata.forwardedModuleToken
          (m.applyPayload (.metadata items)).metadata.forwardedModuleToken ∧
        LastSets .forwardIterator some items m.metadata.iteratorClass (m.applyPayload (.metadata items)).metadata.iteratorClass ∧
        LastSets .iteratorLocals some items m.metadata.iteratorRanges (m.applyPayload (.metadata items)).metadata.iteratorRanges ∧
        LastSets .dynamicLocals id items m.metadata.dynamicLocals (m.applyPayload (.metadata items)).metadata.dynamicLocals) ∧
      m.applyPayload (.metadata (items.filter isTaken)) = m.applyPayload (.metadata items) ∧
      (∀ items', (∀ kind, ofKind kind items' = ofKind kind items) →
        m.applyPayload (.metadata items') = m.applyPayload (.metadata items)) ∧
      (∀ records : List (List MetadataItem), records.flatten = items →
        (records.map VendorPayload.metadata).foldl applyPayload m = m.applyPayload (.metadata items)) ∧
      ∀ moduleName options h record b method q, Method.read moduleName options h record b h.stop = (.ok method, q) →
        method.metadata = { ({} : MethodMetadata).applyAll
            (((BodySite.ofProcedure h record).payloads options.maxScopeDepth b).flatMap VendorPayload.items) with
          synchronization := (((BodySite.ofProcedure h record).payloads options.maxScopeDepth b).filterMap
            VendorPayload.synchronization?).getLast? } := by
  have hsame (items' : List MetadataItem) (h : ∀ kind, ofKind kind items' = ofKind kind items) :
      m.applyPayload (.metadata items') = m.applyPayload (.metadata items) := by
    rw [applyPayload_metadata, applyPayload_metadata, MethodMetadata.applyAll_congr _ h]
  refine ⟨⟨rfl, m.metadata.synchronization_applyAll items, fun _ _ _ => rfl⟩, m.metadata.applyAll_lastSets items,
    hsame _ fun kind => ?_, hsame, ?_, ?_⟩
  · simp only [ofKind, List.filter_filter]
    congr 1
    funext i
    cases i.isTaken <;> simp
  · rintro records rfl
    exact m.foldl_applyPayload records
  · intro _ _ _ _ _ _ _ hr
    exact Method.metadata_of_read hr

/-- A procedure that names two methods whose using information holds too, in two vendor records with a slot between them. -/
def sampleForwarded : ProcedureShape :=
  { ModuleSymbols.sampleShape "M" with entries := [
      .metadata [.understood (.usingInfo [1, 2]) [], .understood (.forwardInfo ⟨1⟩) []],
      .entry (.slot { index := 0, typeToken := ⟨0x11000001⟩, address := 0, segment := 1, flags := ⟨0⟩, name := "x" }),
      .metadata [.skipped 0 3 [], .understood (.forwardInfo ⟨2⟩) []]] }

/-- The stored form of that procedure. -/
def sampleForwardedStream : Buffer where
  bytes := (sampleForwarded.stored 0).toArray
  size_lt := by decide +kernel

/-- Items of two kinds may change places. In the sample the items of both records are taken in, so the method is forwarded to the second
of the two, and the using counts stay although an item of their kind is skipped behind them. -/
theorem applyPayload_lastSets_sampleForwarded :
    ({} : MethodBody).applyPayload (.metadata [.forwardInfo ⟨1⟩, .usingInfo [1, 2]]) =
        ({} : MethodBody).applyPayload (.metadata [.usingInfo [1, 2], .forwardInfo ⟨1⟩]) ∧
      ({} : MethodBody).applyPayload (.metadata [.usingInfo [1, 2], .forwardInfo ⟨1⟩]) =
        (({} : MethodBody).applyPayload (.metadata [.usingInfo [1, 2]])).applyPayload (.metadata [.forwardInfo ⟨1⟩]) ∧
      ∃ m q, Method.read "M" {} (sampleForwarded.storedHeader 0) (sampleForwarded.record true (UInt32.ofNat (sampleForwarded.bodyStop 0)))
          sampleForwardedStream (sampleForwarded.storedHeader 0).stop = (.ok m, q) ∧
        m.metadata = { usingCounts := [1, 2], forwardToken := some ⟨2⟩ } := by
  obtain ⟨-, -, -, hsame, hrecords, hread⟩ :=
    applyPayload_lastSets {} [.usingInfo [1, 2], .forwardInfo ⟨1⟩]
  refine ⟨hsame _ fun kind => ?_, (hrecords [[.usingInfo [1, 2]], [.forwardInfo ⟨1⟩]] rfl).symm, ?_⟩
  · cases kind <;> rfl
  · have hname : (Method.read "M" {} (sampleForwarded.storedHeader 0)
        (sampleForwarded.record true (UInt32.ofNat (sampleForwarded.bodyStop 0))) sampleForwardedStream
        (sampleForwarded.storedHeader 0).stop).1.toOption.map Method.name = some (some "M") := by decide +kernel
    obtain ⟨m, q, hm, -⟩ := exists_of_answer hname
    have hpayloads : (BodySite.ofProcedure (sampleForwarded.storedHeader 0)
        (sampleForwarded.record true (UInt32.ofNat (sampleForwarded.bodyStop 0)))).payloads 128 sampleForwardedStream =
        [.metadata [.usingInfo [1, 2], .forwardInfo ⟨1⟩], .metadata [.skipped .usingInfo 3 8, .forwardInfo ⟨2⟩]] := by decide +kernel
    refine ⟨m, q, hm, ?_⟩
    rw [hread _ _ _ _ _ _ _ hm, hpayloads]
    rfl

end MethodBody

end ManagedSymbols
