import ManagedSymbols.Proofs.Module.Reached
import ManagedSymbols.Proofs.Module.Safe
import ManagedSymbols.Proofs.Record.Forward

/-!
# Modules are read forward

The walks over bodies and modules put the cursor at places that the bytes name, and back to where a body or the module starts. None
of these places lies in front of the record that is being read: a terminator that is accepted stands behind its opener, and a walk
that starts over does so behind its own framing. So nothing in front of the start of a module makes a difference
(`ModuleSymbols.read_of_agreeOn`).
-/

namespace ManagedSymbols

open Reader

section Bodies

variable {lo limit c p : Nat} {b b' : Buffer} {h : RecordHeader}

/-! ## Measures -/

theorem Tally.count_forward (limit : Nat) (h : RecordHeader) (t : Tally) : Forward (Tally.count limit h t) := by
  unfold Tally.count
  split
  · exact (h.declaredEnd_forward limit).bind fun _ => (Forward.fits _).bind fun _ => Forward.pure _
  · exact (Forward.fits _).bind fun _ => Forward.pure _
  · exact (Forward.fits _).bind fun _ => Forward.pure _
  · exact (Forward.fits _).bind fun _ => Forward.pure _
  · exact Forward.pure _

theorem Tally.measure_forward (limit : Nat) : Forward (Tally.measure limit) := by
  intro lo b b' p agree hp
  have hscan : ForwardAt lo b b' p (scan limit (Tally.count limit) {}) :=
    scan_forwardAt agree (fun t _ hc => (count_forward limit _ t).run agree (Nat.le_add_right_of_le hc)) hp {}
  exact hscan.restoring hp

/-! ## Bodies -/

/-- A record of a body is gathered forward if blocks are read forward. -/
theorem Body.gather_forwardAt {readBlock : BlockRecord → Reader Block} (agree : b.AgreeFrom b' lo)
    (inner : ∀ record, Forward (readBlock record)) (hf : RecordHeader.frame limit b c = (.ok h, c + 4)) (hc : lo ≤ c)
    (body : Body) : ForwardAt lo b b' (c + 4) (Body.gather readBlock limit h body) := by
  obtain ⟨_, hstop, _⟩ := RecordHeader.of_frame hf
  have hp : lo ≤ c + 4 := Nat.le_add_right_of_le hc
  unfold Body.gather
  split
  · refine ((BlockRecord.read_forward h).run agree hp).bind fun record q _ hq => ?_
    refine ((Forward.check _).run agree hq).bind fun _ q _ _ => ?_
    refine (ForwardAt.seek agree (by omega)).bind fun _ q _ hq => ?_
    refine ((inner record).run agree hq).bind fun block q _ hq => ?_
    exact (Forward.position.run agree hq).bind fun _ _ _ hq => .pure hq _
  · exact ((Forward.check _).bind fun _ => Slot.read_forward.bind fun _ => Forward.pure _).run agree hp
  · exact ((Forward.check _).bind fun _ => Constant.read_forward.bind fun _ => Forward.pure _).run agree hp
  · exact (Forward.utf8.bind fun _ => Forward.pure _).run agree hp
  · exact .pure hp _

/-- A record of the body of a method is gathered forward if blocks are read forward. -/
theorem MethodBody.gather_forwardAt {readBlock : BlockRecord → Reader Block} (agree : b.AgreeFrom b' lo)
    (inner : ∀ record, Forward (readBlock record)) (hf : RecordHeader.frame limit b c = (.ok h, c + 4)) (hc : lo ≤ c)
    (m : MethodBody) : ForwardAt lo b b' (c + 4) (MethodBody.gather readBlock limit h m) := by
  by_cases hv : h.kind = .vendor
  · rw [gather_vendor hv]
    exact ((VendorPayload.read_forward h).bind fun _ => Forward.pure _).run agree (Nat.le_add_right_of_le hc)
  · rw [gather_of_ne_vendor hv]
    exact (Body.gather_forwardAt agree inner hf hc m.body).bind fun _ _ _ hq => .pure hq _

/-- A block is read forward, with all blocks in it. -/
theorem Block.read_forward (address : UInt32) (maxDepth depth : Nat) (record : BlockRecord) :
    Forward (Block.read address maxDepth depth record) := by
  by_cases hdepth : depth ≤ maxDepth
  · have inner (nested : BlockRecord) : Forward (Block.readNested address maxDepth depth nested) :=
      (Forward.fits _).bind fun _ => Block.read_forward address maxDepth (depth + 1) nested
    intro lo b b' p agree hp
    rw [Block.read_of_le hdepth]
    refine ((Forward.require _ _).run agree hp).bind fun _ q _ hq => ?_
    refine ((Tally.measure_forward _).run agree hq).bind fun _ q _ hq => ?_
    refine (scan_forwardAt agree (fun body hf hc => Body.gather_forwardAt agree inner hf hc body) hq _).bind fun body q _ hq => ?_
    exact ((expectEnd_forward _ _).run agree hq).bind fun _ _ _ hq => .pure hq _
  · rw [Block.read_of_lt (Nat.lt_of_not_le hdepth)]
    exact Forward.fail _
termination_by maxDepth + 1 - depth

/-! ## Methods -/

/-- The body of a procedure is read forward. -/
theorem Method.read_forward (moduleName : String) (options : Options) (h : RecordHeader) (record : ProcedureRecord) :
    Forward (Method.read moduleName options h record) := by
  intro lo b b' p agree hp
  refine ((Forward.check _).run agree hp).bind fun _ q _ hq => ?_
  refine (Forward.size.run agree hq).bind fun _ q _ hq => ?_
  refine ((Forward.check _).run agree hq).bind fun limit q _ hq => ?_
  refine ((Tally.measure_forward limit).run agree hq).bind fun tally q _ hq => ?_
  have inner (nested : BlockRecord) : Forward (Block.read record.offset options.maxScopeDepth 1 nested) :=
    Block.read_forward record.offset options.maxScopeDepth 1 nested
  refine (scan_forwardAt agree (fun m hf hc => MethodBody.gather_forwardAt agree inner hf hc m) hq _).bind fun m q _ hq => ?_
  exact ((expectEnd_forward h.kind limit).run agree hq).bind fun _ _ _ hq => .pure hq _

end Bodies

/-! ## Modules -/

namespace ModuleSymbols

variable {lo limit c : Nat} {b b' : Buffer} {h : RecordHeader} {moduleName : String} {options : Options}

theorem countProcedure_forward (limit : Nat) (h : RecordHeader) (count : Nat) : Forward (countProcedure limit h count) := by
  unfold countProcedure
  exact ((h.declaredEnd_forward limit).bind fun _ => (Forward.fits _).bind fun _ => Forward.pure _).ite (Forward.pure _)

/-- A record of a module is decoded forward. -/
theorem gather_forwardAt (agree : b.AgreeFrom b' lo) (hf : RecordHeader.frame limit b c = (.ok h, c + 4)) (hc : lo ≤ c)
    (methods : List Method) : ForwardAt lo b b' (c + 4) (gather moduleName limit options h methods) := by
  obtain ⟨_, hstop, _⟩ := RecordHeader.of_frame hf
  have hp : lo ≤ c + 4 := Nat.le_add_right_of_le hc
  unfold gather
  split
  · refine ((ProcedureRecord.read_forward h _).run agree hp).bind fun record q _ hq => ?_
    refine ((Forward.check _).run agree hq).bind fun _ q _ _ => ?_
    refine (ForwardAt.seek agree (by omega)).bind fun _ q _ hq => ?_
    refine ((Method.read_forward moduleName options h record).run agree hq).bind fun m q _ hq => ?_
    exact (Forward.position.run agree hq).bind fun _ _ _ hq => .pure hq _
  · exact .pure hp _

/-- A module is read forward. -/
theorem read_forward (moduleName : String) (limit : Nat) (options : Options) : Forward (read moduleName limit options) := by
  intro lo b b' p agree hp
  refine (Forward.position.run agree hp).bind fun start q hposition hq => ?_
  cases hposition
  have hcount : ForwardAt lo b b' p (countProcedures limit) :=
    scan_forwardAt agree (fun n _ hc => (countProcedure_forward limit _ n).run agree (Nat.le_add_right_of_le hc)) hp 0
  refine hcount.bind fun count q _ hq => ?_
  split
  · exact .pure hq _
  · refine (ForwardAt.seek agree hp).bind fun _ q _ hq => ?_
    refine (scan_forwardAt agree (fun methods hf hc => gather_forwardAt agree hf hc methods) hq []).bind fun methods q _ hq => ?_
    exact .pure hq _

/-- Nothing in front of the start of a module makes a difference to how it is read: in two buffers of one size that agree from the
start on, the methods or the fault are the same, with all positions that the fault names, and so is the cursor. -/
theorem read_of_agreeOn (moduleName : String) (limit : Nat) (options : Options) {b b' : Buffer} {start : Nat}
    (hsize : b.size = b'.size) (agree : b.AgreeOn b' start b.size) :
    read moduleName limit options b start = read moduleName limit options b' start := by
  by_cases hstart : start ≤ b.size
  · exact ((read_forward moduleName limit options).run ⟨hstart, hsize, agree⟩ (Nat.le_refl start)).1
  · rw [read_of_size_lt moduleName limit options (Nat.lt_of_not_le hstart),
      read_of_size_lt moduleName limit options (hsize ▸ Nat.lt_of_not_le hstart)]

/-- Behind one byte, a procedure with an empty block and a namespace behind the block. -/
def sampleBehind (front : UInt8) : Buffer where
  bytes := ([front] ++ (sampleRecord "M" 77 ++ Layout.record .block (Entry.blockFields 0 67 4 0 1 "") ++ Layout.terminator ++
    Layout.record .usingNamespace (Layout.utf8 "A") ++ Layout.terminator)).toArray
  size_lt := by
    simp [sampleRecord, sampleShape, Layout.record, ProcedureShape.fields, Entry.blockFields, Layout.terminator, Layout.utf8,
      Utf8.encode]
    decide

/-- The byte in front of a module makes no difference to the method that is read behind it. -/
theorem read_of_agreeOn_sample : (sampleBehind 0).size = (sampleBehind 255).size ∧
    (sampleBehind 0).AgreeOn (sampleBehind 255) 1 (sampleBehind 0).size ∧
    (sampleBehind 0).toList ≠ (sampleBehind 255).toList ∧
    ∃ m q, read "M" 81 {} (sampleBehind 0) 1 = (.ok (some [m]), q) ∧ m.usedNamespaces = ["A"] ∧
      read "M" 81 {} (sampleBehind 255) 1 = (.ok (some [m]), q) := by
  have hsize : (sampleBehind 0).size = (sampleBehind 255).size := rfl
  have hholds (front : UInt8) : (sampleBehind front).Holds 1 ((sampleBehind 0).toList.drop 1) :=
    ⟨[front], [], by rw [List.append_nil]; rfl, rfl⟩
  have hagree : (sampleBehind 0).AgreeOn (sampleBehind 255) 1 (sampleBehind 0).size := .of_holds (hholds 0) (hholds 255)
  have hmethods : (read "M" 81 {} (sampleBehind 0) 1).1.toOption.map (Option.map (List.map Method.usedNamespaces)) =
      some (some [["A"]]) := by decide +kernel
  obtain ⟨methods, q, hr, hparts⟩ := exists_of_some_answer hmethods
  obtain ⟨m, rfl, hm⟩ := List.map_eq_singleton_iff.mp hparts
  have hsame := read_of_agreeOn "M" 81 {} hsize hagree
  exact ⟨hsize, hagree, by decide, m, q, hr, hm, hsame ▸ hr⟩

end ModuleSymbols

end ManagedSymbols
