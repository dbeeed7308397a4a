import ManagedSymbols.ModuleSymbols
import ManagedSymbols.Proofs.Layout.Method

/-!
# A module is read where it is stored

Both walks of a module are followed over the stored form of its description: the first one counts a procedure for each method the
description tells of (`ModuleEntry.count_storedAll`), and the second one reads these methods (`ModuleEntry.gather_storedAll`).
Together they say that what is stored is what is read, whatever stands in front of the module and behind it
(`ModuleSymbols.read_stored`).
-/

namespace ManagedSymbols

open Reader

namespace ModuleEntry

variable {moduleName : String} {options : Options} {base limit : Nat} {b : Buffer}

/-- A record of a module that is no procedure is not counted. -/
theorem countProcedure_of_not {h : RecordHeader} (hp : h.kind.isProcedure = false) (limit count : Nat) :
    ModuleSymbols.countProcedure limit h count = pure (.afterRecord, count) := by
  rw [ModuleSymbols.countProcedure, if_neg (by simp [hp])]

/-- A record of a module that is no procedure is not decoded. -/
theorem gather_of_not {h : RecordHeader} (hp : h.kind.isProcedure = false) (limit : Nat) (methods : List Method) :
    ModuleSymbols.gather moduleName limit options h methods = pure (.afterRecord, methods) := by
  rw [ModuleSymbols.gather, if_neg (by simp [hp])]

/-- Where a record is stored that is no procedure, a scan steps over it if its handler does nothing. -/
theorem scan_over_foreign {σ : Type} {handler : RecordHandler σ} {s : σ} {code : UInt16} {body : List UInt8}
    (hpass : ∀ h : RecordHeader, h.kind.isProcedure = false → handler h s = pure (.afterRecord, s))
    (hforeign : (RecordKind.ofCode code).isProcedure = false) (hlen : body.length + 2 < 2 ^ 16)
    (hb : b.Holds base (stored base (foreign code body)))
    (hlimit : base + (stored base (foreign code body)).length ≤ limit) :
    scan limit handler s b base = scan limit handler s b (base + (stored base (foreign code body)).length) := by
  have hstep : handler (Layout.header base (RecordKind.ofCode code) body) s b (base + 4) =
      (.ok (.afterRecord, s), base + 4) := by
    rw [hpass _ hforeign, run_pure]
  exact (ScanStep.behind (RecordKind.ofCode_code_ofCode code) hlen hb hlimit hstep).scan_eq

/-- Where a procedure is stored, it is counted and its body is stepped over. -/
theorem count_procedure {p : ProcedureShape} {count : Nat} (he : p.Storable options.maxScopeDepth base)
    (hb : b.Holds base (p.stored base)) (hlimit : p.bodyStop base + 4 ≤ limit) (hw : limit ≤ 2 ^ 32) (hcount : count ≤ base) :
    scan limit (ModuleSymbols.countProcedure limit) count b base =
      scan limit (ModuleSymbols.countProcedure limit) (count + 1) b (p.bodyStop base + 4) := by
  obtain ⟨hfix, hstop⟩ := ProcedureShape.checks he hlimit (by omega)
  have hfields := (ProcedureShape.holds hb).1.body
  have hbehind := p.le_bodyStop base
  simp only [ProcedureShape.storedFields, ProcedureShape.fields, List.append_assoc] at hfields
  have hdeclared := RecordHeader.declaredEnd_of_holds hfix hstop hfields
  rw [ProcedureShape.stored_eq] at hb
  refine scan_over_opener (r := base + 12) ProcedureShape.ofCode_code_kind (ProcedureShape.storedFields_fit he) hb ?_ hlimit
    ?_ ?_
  · rw [ProcedureShape.bodyStart_eq]
    rfl
  · show ModuleSymbols.countProcedure limit (p.storedHeader base) count b (base + 4) = _
    rw [ModuleSymbols.countProcedure, if_pos ProcedureShape.storedHeader_isProcedure, run_bind_ok hdeclared, run_bind, run_fits,
      if_pos (by omega)]
    rfl
  · intro h hh
    exact countProcedure_of_not (by rw [hh]; rfl) limit _

/-- Where a procedure is stored, its method is gathered. -/
theorem gather_procedure {p : ProcedureShape} {methods : List Method} (he : p.Storable options.maxScopeDepth base)
    (hb : b.Holds base (p.stored base)) (hlimit : p.bodyStop base + 4 ≤ limit) (hw : limit ≤ 2 ^ 32) :
    scan limit (ModuleSymbols.gather moduleName limit options) methods b base =
      scan limit (ModuleSymbols.gather moduleName limit options) (methods ++ [p.method moduleName options]) b
        (p.bodyStop base + 4) := by
  obtain ⟨hrecord, _, hend⟩ := ProcedureShape.holds hb
  obtain ⟨hfix, hstop⟩ := ProcedureShape.checks he hlimit (by omega)
  have hinside : p.bodyStart base ≤ p.bodyStop base := Nat.le_add_right _ _
  have hsize : p.bodyStop base + 4 ≤ b.size := hend.le_size
  have hfields := ProcedureShape.record_reads (p := p) (base + 4) hfix he.1 options.readNames
    (UInt32.ofNat (p.bodyStop base)) b hrecord.body
  have hmethod := ProcedureShape.read_method moduleName options he hb (by omega)
  have hcheck : ∀ q, Reader.check ((p.storedHeader base).checkedEnd
      (p.record options.readNames (UInt32.ofNat (p.bodyStop base))).stop limit) b q = (.ok (p.bodyStop base), q) := by
    intro q
    show Reader.check ((p.storedHeader base).checkedEnd (UInt32.ofNat (p.bodyStop base)) limit) b q = _
    rw [hstop]
    rfl
  have hseek : ∀ q, Reader.seek (p.storedHeader base).stop b q = (.ok (), p.bodyStart base) := by
    intro q
    rw [ProcedureShape.storedHeader_stop, run_seek, if_pos (by omega)]
  have hgathered : ModuleSymbols.gather moduleName limit options (p.storedHeader base) methods b (base + 4) =
      (.ok (.jump (p.bodyStop base + 4), methods ++ [p.method moduleName options]), p.bodyStop base + 4) := by
    rw [ModuleSymbols.gather, if_pos ProcedureShape.storedHeader_isProcedure, run_bind_ok hfields, run_bind_ok (hcheck _),
      run_bind_ok (hseek _), run_bind_ok hmethod]
    rfl
  have hbehind : base + 4 + (p.storedFields base).length ≤ p.bodyStop base + 4 := by
    rw [ProcedureShape.bodyStart_eq]
    omega
  exact (ScanStep.jumping ProcedureShape.ofCode_code_kind (ProcedureShape.storedFields_fit he) hrecord hbehind hlimit hsize
    hgathered).scan_eq

/-- Where entries are stored up to the limit, one procedure is counted for each method they tell of. -/
theorem count_storedAll (moduleName : String) {entries : List ModuleEntry} {count : Nat}
    (he : StorableAll options.maxScopeDepth base entries) (hb : b.Holds base (storedAll base entries))
    (hlimit : base + (storedAll base entries).length = limit) (hw : limit ≤ 2 ^ 32) (hcount : count ≤ base) :
    scan limit (ModuleSymbols.countProcedure limit) count b base =
      (.ok (count + (methods moduleName options entries).length), limit) := by
  induction entries generalizing base count with
  | nil => exact scan_of_eq hlimit
  | cons e rest ih =>
    simp only [storedAll, List.length_append] at hb hlimit
    cases e with
    | foreign code body =>
      obtain ⟨hforeign, hlen, hrest⟩ := he
      rw [scan_over_foreign (fun h hp => countProcedure_of_not hp limit count) hforeign hlen hb.left (by omega)]
      exact ih hrest hb.right (by omega) (by omega)
    | procedure p =>
      have hstop := p.length_stored base
      have hbehind := p.le_bodyStop base
      simp only [stored] at hb hlimit
      rw [count_procedure he.1 hb.left (by omega) hw hcount, ← hstop, ih he.2 hb.right (by omega) (by omega), methods,
        List.length_cons, Nat.add_assoc, Nat.add_comm 1]

/-- Where entries are stored up to the limit, the methods they tell of are gathered. -/
theorem gather_storedAll (moduleName : String) {entries : List ModuleEntry} (found : List Method)
    (he : StorableAll options.maxScopeDepth base entries) (hb : b.Holds base (storedAll base entries))
    (hlimit : base + (storedAll base entries).length = limit) (hw : limit ≤ 2 ^ 32) :
    scan limit (ModuleSymbols.gather moduleName limit options) found b base =
      (.ok (found ++ methods moduleName options entries), limit) := by
  induction entries generalizing base found with
  | nil =>
    rw [methods, List.append_nil]
    exact scan_of_eq hlimit
  | cons e rest ih =>
    simp only [storedAll, List.length_append] at hb hlimit
    cases e with
    | foreign code body =>
      obtain ⟨hforeign, hlen, hrest⟩ := he
      rw [scan_over_foreign (fun h hp => gather_of_not hp limit found) hforeign hlen hb.left (by omega)]
      exact ih found hrest hb.right (by omega)
    | procedure p =>
      have hstop := p.length_stored base
      simp only [stored] at hb hlimit
      rw [gather_procedure he.1 hb.left (by omega) hw, ← hstop, ih _ he.2 hb.right (by omega), methods, List.append_assoc,
        List.singleton_append]

end ModuleEntry

/-- Where a module is stored, whatever stands in front of it and behind it, the methods it tells of are read, all of them and in
order, and the cursor is left behind it; a module without procedures has none. -/
theorem ModuleSymbols.read_stored (moduleName : String) (options : Options) (entries : List ModuleEntry) (b : Buffer)
    (base : Nat) (hb : b.Holds base (ModuleEntry.storedAll base entries))
    (he : ModuleEntry.StorableAll options.maxScopeDepth base entries)
    (hw : base + (ModuleEntry.storedAll base entries).length ≤ 2 ^ 32) :
    ModuleSymbols.read moduleName (base + (ModuleEntry.storedAll base entries).length) options b base =
      (.ok (if ModuleEntry.methods moduleName options entries = [] then none
        else some (ModuleEntry.methods moduleName options entries)),
        base + (ModuleEntry.storedAll base entries).length) := by
  have hcount := ModuleEntry.count_storedAll moduleName he hb rfl hw (Nat.zero_le base)
  have hgather := ModuleEntry.gather_storedAll moduleName [] he hb rfl hw
  have hseek : ∀ q, Reader.seek base b q = (.ok (), base) := by
    intro q
    rw [run_seek, if_pos (Nat.le_trans (Nat.le_add_right _ _) hb.le_size)]
  rw [Nat.zero_add] at hcount
  rw [List.nil_append] at hgather
  rw [read, run_bind_ok (show Reader.position b base = (.ok base, base) from rfl), countProcedures, run_bind_ok hcount]
  by_cases hnone : ModuleEntry.methods moduleName options entries = []
  · rw [if_pos hnone, if_pos (by rw [hnone]; rfl), run_pure]
  · rw [if_neg hnone, if_neg (fun hzero => hnone (List.eq_nil_of_length_eq_zero hzero)), run_bind_ok (hseek _),
      run_bind_ok hgather, run_pure]

/-- A module with a record that is stepped over and a procedure that holds one entry of each sort, blocks nested twice. -/
def ModuleEntry.sample : List ModuleEntry :=
  [.foreign 0x1012 [1, 2, 3],
    .procedure {
      isGlobal := true
      length := 20
      debugStart := 0
      debugEnd := 20
      token := ⟨0x06000001⟩
      address := 100
      flags := ⟨0⟩
      returnRegister := 0
      name := "Move"
      entries := [
        .entry (.slot { index := 0, typeToken := ⟨0x11000001⟩, address := 0, segment := 1, flags := ⟨1⟩, name := "x" }),
        .metadata [.understood (.usingInfo [1]) [0, 0], .skipped 6 4 [9]],
        .entry (.block 0 10 104 1 "" [
          .constant { typeToken := ⟨0x11000002⟩, value := .ushort 7, name := "c" } (Layout.word16 7),
          .block 0 4 106 1 "inner" [.usingNamespace "System"]]),
        .entry (.foreign 0x1019 []),
        .asyncMethod { kickoffMethod := ⟨0x06000002⟩, catchHandlerOffset := 0, points := [⟨1, ⟨0x06000001⟩, 2⟩] }] }]

/-- The sample behind one byte and in front of another. -/
def ModuleEntry.sampleBuffer : Buffer where
  bytes := ([0xFF] ++ ModuleEntry.storedAll 1 sample ++ [0xFF]).toArray
  size_lt := by decide +kernel

/-- The sample can be stored and is read back. -/
theorem ModuleSymbols.read_stored_sample :
    ModuleEntry.StorableAll 2 1 ModuleEntry.sample ∧
      ModuleEntry.sampleBuffer.Holds 1 (ModuleEntry.storedAll 1 ModuleEntry.sample) ∧
      1 + (ModuleEntry.storedAll 1 ModuleEntry.sample).length ≤ 2 ^ 32 ∧
      ModuleSymbols.read "Some.dll" (1 + (ModuleEntry.storedAll 1 ModuleEntry.sample).length) { maxScopeDepth := 2 }
        ModuleEntry.sampleBuffer 1 =
          (.ok (some (ModuleEntry.methods "Some.dll" { maxScopeDepth := 2 } ModuleEntry.sample)),
            1 + (ModuleEntry.storedAll 1 ModuleEntry.sample).length) := by
  have he : ModuleEntry.StorableAll 2 1 ModuleEntry.sample := by
    refine ⟨by decide, by decide, ⟨by decide, by decide +kernel, ⟨?_, ?_, ?_, ?_, ?_, trivial⟩, by decide⟩, trivial⟩
    · exact ⟨by decide, by decide⟩
    · refine ⟨by decide, ?_, by decide +kernel⟩
      intro i hi
      simp only [List.mem_cons, List.not_mem_nil, or_false] at hi
      rcases hi with rfl | rfl
      · exact ⟨by decide, show [1].length < 2 ^ 16 by decide⟩
      · exact ⟨by decide, .inr rfl⟩
    · exact ⟨by decide, by decide, by decide, ⟨.plain (by decide), by decide, by decide⟩,
        ⟨by decide, by decide, by decide, ⟨by decide, by decide⟩, trivial⟩, trivial⟩
    · exact ⟨by decide, by decide⟩
    · exact ⟨by decide, by decide +kernel⟩
  have hb : ModuleEntry.sampleBuffer.Holds 1 (ModuleEntry.storedAll 1 ModuleEntry.sample) := ⟨[0xFF], [0xFF], rfl, rfl⟩
  have hw : 1 + (ModuleEntry.storedAll 1 ModuleEntry.sample).length ≤ 2 ^ 32 := by decide +kernel
  have hread := ModuleSymbols.read_stored "Some.dll" { maxScopeDepth := 2 } ModuleEntry.sample ModuleEntry.sampleBuffer 1 hb
    he hw
  have hsome : ModuleEntry.methods "Some.dll" { maxScopeDepth := 2 } ModuleEntry.sample ≠ [] := List.cons_ne_nil _ _
  rw [if_neg hsome] at hread
  exact ⟨he, hb, hw, hread⟩

end ManagedSymbols
