import ManagedSymbols.Proofs.Module.Reached
import ManagedSymbols.Proofs.Reader.Extents

/-!
# Which locals are read from their own records

Slots, constants and imported namespaces are read from the whole buffer, with only the fixed fields of their records checked
beforehand. In a module whose methods are read, each such record that is met is read, and it is read from its own bytes exactly
when a zero byte stands in it behind the value and the other fields (`ModuleSymbols.confined_iff`). Otherwise the name, or the
value, is taken from the records behind it, and the reading goes on (`ModuleSymbols.not_confined`).
-/

namespace ManagedSymbols

open Reader

namespace RecordHeader

/-- Where the name starts in the record of a slot, a constant or an imported namespace. -/
def nameStart (b : Buffer) (h : RecordHeader) : Nat :=
  match h.kind with
  | .slot => h.offset + 20
  | .constant => NumericLeaf.storedEnd b (h.offset + 8)
  | _ => h.offset + 4

/-- A slot, a constant or an imported namespace is read from its record, and the cursor is left at a position. -/
inductive ReadTo (b : Buffer) (h : RecordHeader) (q : Nat) : Prop where
  | slot {found : Slot} (kind : h.kind = .slot) (read : Slot.read b (h.offset + 4) = (.ok found, q))
  | constant {found : Constant} (kind : h.kind = .constant) (read : Constant.read b (h.offset + 4) = (.ok found, q))
  | usingNamespace {name : String} (kind : h.kind = .usingNamespace) (read : Reader.utf8 b (h.offset + 4) = (.ok name, q))

/-- The cursor behind a slot, a constant or an imported namespace is behind the next zero byte from its name on. -/
theorem ReadTo.cursor_eq {b : Buffer} {h : RecordHeader} {q : Nat} (hr : h.ReadTo b q) :
    q = min (b.zeroFrom (h.nameStart b) + 1) b.size := by
  cases hr with
  | slot kind read =>
    rw [nameStart, kind]
    exact (Slot.cursor_of_read read).2
  | constant kind read =>
    rw [nameStart, kind]
    exact (Constant.cursor_of_read read).2
  | usingNamespace kind read =>
    rw [nameStart, kind]
    exact (of_utf8 read).2

/-- A record that does not end the buffer is read from its own bytes exactly when a zero byte ends its name in it. -/
theorem ReadTo.le_stop_iff {b : Buffer} {h : RecordHeader} {q : Nat} (hr : h.ReadTo b q) (hstop : h.stop < b.size) :
    q ≤ h.stop ↔ ∃ i, h.nameStart b ≤ i ∧ i < h.stop ∧ b.bytes[i]? = some 0 := by
  rw [← Buffer.zeroFrom_lt_iff (Nat.le_of_lt hstop), hr.cursor_eq]
  omega

end RecordHeader

namespace ModuleSymbols

variable {moduleName : String} {limit : Nat} {options : Options} {b : Buffer} {p q : Nat} {methods : List Method}

/-- In a module whose methods are read, each slot, constant and imported namespace that is met in a body, of a procedure or of a
block at any depth, is read. The cursor is left inside its record exactly when a zero byte stands in the record from its name on. -/
theorem confined_iff (hr : read moduleName limit options b p = (.ok (some methods), q)) {site : BodySite}
    (hs : Reaches moduleName limit options b p site) {h : RecordHeader}
    (hh : h ∈ (site.gathering options.maxScopeDepth b).visited)
    (hk : h.kind = .slot ∨ h.kind = .constant ∨ h.kind = .usingNamespace) :
    ∃ c, h.ReadTo b c ∧ (c ≤ h.stop ↔ ∃ i, h.nameStart b ≤ i ∧ i < h.stop ∧ b.bytes[i]? = some 0) := by
  obtain ⟨_, _, hread, hsize⟩ := exists_of_reaches hr hs
  obtain ⟨_, _, _, _, step, taken⟩ := hread.exists_taken hh
  have hinside := step.bounds
  have hstop : h.stop < b.size := by
    simp only [terminatorSize] at hsize
    omega
  obtain ⟨c, hc⟩ : ∃ c, h.ReadTo b c := by
    cases taken with
    | block kind => simp [kind] at hk
    | slot kind _ fields => exact ⟨_, .slot kind fields⟩
    | constant kind _ fields => exact ⟨_, .constant kind fields⟩
    | usingNamespace kind fields => exact ⟨_, .usingNamespace kind fields⟩
    | other _ slot constant usingNamespace => simp [slot, constant, usingNamespace] at hk
  exact ⟨c, hc, hc.le_stop_iff hstop⟩

/-- A procedure with two namespaces in it, of which the second one has no room for a name, and a record of an unknown kind behind
them. -/
def sampleWithNamespaces : Buffer where
  bytes := (sampleRecord "M" 60 ++ Layout.record .usingNamespace (Layout.utf8 "A") ++ Layout.record .usingNamespace [] ++
    Layout.record (.unknown 0x1019) [104, 105, 0] ++ Layout.terminator).toArray
  size_lt := by
    simp [sampleRecord, sampleShape, Layout.record, ProcedureShape.fields, Layout.terminator, Layout.utf8, Utf8.encode]
    decide

/-- A namespace whose name ends in its record is read from its record. -/
theorem confined_iff_sample : ∃ methods q site c, read "M" 64 {} sampleWithNamespaces 0 = (.ok (some methods), q) ∧
    Reaches "M" 64 {} sampleWithNamespaces 0 site ∧
    ⟨.usingNamespace, 4, 43, 49⟩ ∈ (site.gathering 128 sampleWithNamespaces).visited ∧
    RecordHeader.ReadTo sampleWithNamespaces ⟨.usingNamespace, 4, 43, 49⟩ c ∧ c ≤ 49 := by
  have hmethods : (read "M" 64 {} sampleWithNamespaces 0).1.toOption.map
      (Option.map (List.map Method.usedNamespaces)) = some (some [["A", "\x05"]]) := by decide +kernel
  obtain ⟨methods, q, hr, _⟩ := exists_of_some_answer hmethods
  have hmet : (⟨.localProcedure, 41, 0, 43⟩ : RecordHeader) ∈ (gathering "M" 64 {} sampleWithNamespaces 0).visited := by
    decide +kernel
  have hreached : Reaches "M" 64 {} sampleWithNamespaces 0 ⟨0, 0, 43, 60⟩ :=
    reaches_of_answer 0 60 hmet rfl (by decide +kernel)
  have hnamespace : (⟨.usingNamespace, 4, 43, 49⟩ : RecordHeader) ∈
      (BodySite.gathering ⟨0, 0, 43, 60⟩ 128 sampleWithNamespaces).visited := by decide +kernel
  obtain ⟨c, hc, hconfined⟩ := confined_iff hr hreached hnamespace (.inr (.inr rfl))
  have hzero : sampleWithNamespaces.bytes[48]? = some 0 := by decide +kernel
  exact ⟨methods, q, _, c, hr, hreached, hnamespace, hc, hconfined.mpr ⟨48, by decide, by decide, hzero⟩⟩

/-- A name may be read from the bytes behind its record: a namespace with no room for a name is named by the length of the record
behind it. -/
theorem not_confined : ∃ methods q site c, read "M" 64 {} sampleWithNamespaces 0 = (.ok (some methods), q) ∧
    Reaches "M" 64 {} sampleWithNamespaces 0 site ∧
    ⟨.usingNamespace, 2, 49, 53⟩ ∈ (site.gathering 128 sampleWithNamespaces).visited ∧
    RecordHeader.ReadTo sampleWithNamespaces ⟨.usingNamespace, 2, 49, 53⟩ c ∧ 53 < c ∧
    methods.map Method.usedNamespaces = [["A", "\x05"]] := by
  have hmethods : (read "M" 64 {} sampleWithNamespaces 0).1.toOption.map
      (Option.map (List.map Method.usedNamespaces)) = some (some [["A", "\x05"]]) := by decide +kernel
  obtain ⟨methods, q, hr, hm⟩ := exists_of_some_answer hmethods
  have hmet : (⟨.localProcedure, 41, 0, 43⟩ : RecordHeader) ∈ (gathering "M" 64 {} sampleWithNamespaces 0).visited := by
    decide +kernel
  have hreached : Reaches "M" 64 {} sampleWithNamespaces 0 ⟨0, 0, 43, 60⟩ :=
    reaches_of_answer 0 60 hmet rfl (by decide +kernel)
  have hname : (Reader.utf8 sampleWithNamespaces 53).1.toOption.map id = some "\x05" := by decide +kernel
  obtain ⟨name, c, hread, _⟩ := exists_of_answer hname
  refine ⟨methods, q, _, c, hr, hreached, by decide +kernel, .usingNamespace rfl hread, ?_, hm⟩
  -- The name ends at position 54, in the length of the record behind.
  rw [(of_utf8 hread).2]
  decide +kernel

end ModuleSymbols

end ManagedSymbols
