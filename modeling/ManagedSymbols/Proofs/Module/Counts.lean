import ManagedSymbols.Proofs.Module.Reached

/-!
# Counts and what is counted

Every body is counted before it is gathered, and every module before its methods are decoded. The counting walks take a terminator
as a record of the length it declares, and the gathering walks as a record of four bytes. So what is counted is what is gathered
wherever all terminators declare to be four bytes long (`BodySite.EndsPlainly`, `ModuleSymbols.EndsPlainly`), and exactly there
the counting walk meets every record that the gathering walk meets: `Method.tally_of_read` says it of every body in a method,
`ModuleSymbols.length_of_read` of the procedures of a module. Without it both counts may be wrong (`Method.tally_ne`,
`ModuleSymbols.length_ne`).
-/

namespace ManagedSymbols

open Reader

/-! ## Bodies -/

namespace BodySite

/-- Whether all blocks directly in a body have a terminator that declares to be four bytes long. -/
def EndsPlainly (s : BodySite) (maxDepth : Nat) (b : Buffer) : Prop :=
  ∀ h ∈ (s.gathering maxDepth b).visited, h.kind.isBlock = true → h.EndsPlainly b

variable {s : BodySite} {maxDepth : Nat} {b : Buffer} {t : Tally} {body : Body}

/-- What a body is counted as and what it holds are added up from the records that the two walks meet. -/
theorem Read.tallies (hr : s.Read maxDepth b t body) :
    t = Tally.ofHeaders (s.measuring b).visited ∧ body.tally = Tally.ofHeaders (s.gathering maxDepth b).visited :=
  ⟨Tally.foldl_of_scanned hr.measuring_scanned, Body.tally_of_scanned hr.gathering_scanned⟩

/-- The measure meets all records that are gathered exactly when all blocks end plainly. -/
theorem Read.met_iff (hr : s.Read maxDepth b t body) :
    (∀ h ∈ (s.gathering maxDepth b).visited, h ∈ (s.measuring b).visited) ↔ s.EndsPlainly maxDepth b :=
  Scanned.subset_iff (Tally.jumpsToEnd s.stop) (Body.readsToEnd s.address maxDepth s.depth s.stop) rfl
    hr.measuring_scanned hr.gathering_scanned

/-- If all blocks end plainly, a body is counted as what it holds. -/
theorem Read.tally_eq (hr : s.Read maxDepth b t body) (hends : s.EndsPlainly maxDepth b) : t = body.tally := by
  have hsame := Scanned.filter_eq RecordKind.isCounted (Tally.jumpsToEnd s.stop)
    (Body.readsToEnd s.address maxDepth s.depth s.stop) rfl rfl hr.measuring_scanned hr.gathering_scanned hends
  rw [hr.tallies.1, hr.tallies.2, Tally.ofHeaders, Tally.ofHeaders, ← Tally.foldl_filter, hsame, Tally.foldl_filter]

end BodySite

/-! ## Methods -/

namespace Method

variable {moduleName : String} {options : Options} {b : Buffer} {h : RecordHeader} {record : ProcedureRecord} {q : Nat}
variable {m : Method}

/-- In a method that is read, every body, its own or that of a block at any depth, is counted as the records that its measure meets
and holds what the records add up to that are gathered. The measure meets all of these exactly when all blocks directly in the body
end plainly, and then the count is what the body holds. Each block is read into a scope that holds its body, and the method holds
its own. It has a root if something of its own body is counted, and so exactly if it declares or imports something, if the blocks
directly in it end plainly. -/
theorem tally_of_read (hr : Method.read moduleName options h record b h.stop = (.ok m, q)) :
    (∀ site, (BodySite.ofProcedure h record).Inside options.maxScopeDepth b site →
      (∃ t body, site.Read options.maxScopeDepth b t body ∧ t = Tally.ofHeaders (site.measuring b).visited ∧
        body.tally = Tally.ofHeaders (site.gathering options.maxScopeDepth b).visited ∧
        ((∀ g ∈ (site.gathering options.maxScopeDepth b).visited, g ∈ (site.measuring b).visited) ↔
          site.EndsPlainly options.maxScopeDepth b) ∧
        (site.EndsPlainly options.maxScopeDepth b → t = body.tally)) ∧
      ∀ g ∈ (site.gathering options.maxScopeDepth b).visited, ∀ inner r, g.kind = .block →
        BlockRecord.read g b (g.offset + 4) = (.ok inner, r) →
        ∃ t body c, (site.ofBlock g inner).Read options.maxScopeDepth b t body ∧
          Block.readNested site.address options.maxScopeDepth site.depth inner b g.stop =
            (.ok (.ofBody site.address inner body), c)) ∧
    ∃ t body, (BodySite.ofProcedure h record).Read options.maxScopeDepth b t body ∧
      (m.root.isSome = t.hasLocals ∧ m.slots = body.slots ∧ m.constants = body.constants ∧
        m.usedNamespaces = body.usedNamespaces ∧ m.blocks.length = body.scopes.length) ∧
      ((BodySite.ofProcedure h record).EndsPlainly options.maxScopeDepth b →
        (m.root.isSome ↔ ¬ (m.slots = [] ∧ m.constants = [] ∧ m.usedNamespaces = []))) := by
  obtain ⟨t, body, hread, _, hroot, hslots, hconstants, hnames, hblocks⟩ := BodySite.read_of_method hr
  constructor
  · intro site hs
    obtain ⟨t, body, hread, _⟩ := hread.exists_of_inside hs
    refine ⟨⟨t, body, hread, hread.tallies.1, hread.tallies.2, hread.met_iff, hread.tally_eq⟩, ?_⟩
    intro g hg inner r hk hfields
    obtain ⟨t, body, c, hblock, hscope, _⟩ := hread.exists_ofBlock hg hk hfields
    exact ⟨t, body, c, hblock, hscope⟩
  · refine ⟨t, body, hread, ⟨hroot, hslots, hconstants, hnames, hblocks⟩, ?_⟩
    intro hends
    rw [hroot, hread.tally_eq hends, hslots, hconstants, hnames]
    exact body.hasLocals_tally

/-- A terminator that declares to be so many bytes longer than it is. -/
def longTerminator (surplus : UInt16) : List UInt8 :=
  Layout.word16 (2 + surplus) ++ Layout.word16 RecordKind.terminator.code

/-- A procedure with an empty block and a namespace behind it. The terminator of the block declares to be so many bytes longer than
it is. -/
def sampleWithBlock (surplus : UInt16) : Buffer where
  bytes := (ModuleSymbols.sampleRecord "M" 76 ++ Layout.record .block (Entry.blockFields 0 66 4 0 1 "") ++ longTerminator surplus ++
    Layout.record .usingNamespace (Layout.utf8 "A") ++ Layout.terminator).toArray
  size_lt := by
    simp [ModuleSymbols.sampleRecord, ModuleSymbols.sampleShape, longTerminator, Layout.record, ProcedureShape.fields,
      Entry.blockFields, Layout.terminator, Layout.utf8, Utf8.encode]
    decide

/-- A method whose block ends plainly is counted as what it holds, and has a root. -/
theorem tally_of_read_sample : ∃ m q, Method.read "M" {} ⟨.localProcedure, 41, 0, 43⟩
      ((ModuleSymbols.sampleShape "M").record true 76) (sampleWithBlock 0) 43 = (.ok m, q) ∧
    m.usedNamespaces = ["A"] ∧ m.root.isSome = true ∧ ∃ t body,
      (BodySite.mk 0 0 43 76).Read 128 (sampleWithBlock 0) t body ∧ t = body.tally := by
  have hmethod : (Method.read "M" {} ⟨.localProcedure, 41, 0, 43⟩ ((ModuleSymbols.sampleShape "M").record true 76)
      (sampleWithBlock 0) 43).1.toOption.map (fun m => m.usedNamespaces) = some ["A"] := by decide +kernel
  obtain ⟨m, q, hr, hnames⟩ := exists_of_answer hmethod
  have hends : (BodySite.mk 0 0 43 76).EndsPlainly 128 (sampleWithBlock 0) := by
    rw [BodySite.EndsPlainly]
    decide +kernel
  obtain ⟨hbodies, _, _, _, _, hroot⟩ := tally_of_read hr
  obtain ⟨⟨t, body, hread, _, _, _, htally⟩, _⟩ := hbodies _ .self
  have hdeclares : ¬ (m.slots = [] ∧ m.constants = [] ∧ m.usedNamespaces = []) := by simp [hnames]
  exact ⟨m, q, hr, hnames, (hroot hends).mpr hdeclares, t, body, hread, htally hends⟩

/-- A body may be counted as less than it holds: a namespace behind a block is not counted if it lies in the length that the
terminator of the block declares, and a method that imports it has no root. -/
theorem tally_ne : ∃ methods q site t body, ModuleSymbols.read "M" 80 {} (sampleWithBlock 6) 0 = (.ok (some methods), q) ∧
    ModuleSymbols.Reaches "M" 80 {} (sampleWithBlock 6) 0 site ∧ site.Read 128 (sampleWithBlock 6) t body ∧ t ≠ body.tally ∧
    methods.map (fun m => (m.root.isSome, m.usedNamespaces)) = [(false, ["A"])] := by
  have hmethods : (ModuleSymbols.read "M" 80 {} (sampleWithBlock 6) 0).1.toOption.map
      (Option.map (List.map fun m => (m.root.isSome, m.usedNamespaces))) = some (some [(false, ["A"])]) := by decide +kernel
  obtain ⟨methods, q, hr, hm⟩ := exists_of_some_answer hmethods
  have hmet : (⟨.localProcedure, 41, 0, 43⟩ : RecordHeader) ∈
      (ModuleSymbols.gathering "M" 80 {} (sampleWithBlock 6) 0).visited := by decide +kernel
  have hreached : ModuleSymbols.Reaches "M" 80 {} (sampleWithBlock 6) 0 ⟨0, 0, 43, 76⟩ :=
    ModuleSymbols.reaches_of_answer 0 76 hmet rfl (by decide +kernel)
  obtain ⟨t, body, hread, _⟩ := ModuleSymbols.exists_of_reaches hr hreached
  refine ⟨methods, q, _, t, body, hr, hreached, hread, ?_, hm⟩
  rw [hread.tallies.1, hread.tallies.2]
  decide +kernel

end Method

/-! ## Modules -/

/-- The terminator in a procedure record is the declared one. -/
theorem ProcedureRecord.stop_of_read {h : RecordHeader} {record : ProcedureRecord} {wanted : Bool} {q : Nat} {b : Buffer}
    (hr : ProcedureRecord.read h wanted b (h.offset + 4) = (.ok record, q)) : record.stop.toNat = h.declaredStop b := by
  obtain ⟨_, _, hstop, hr⟩ := RecordHeader.exists_of_opener hr
  iterate 10 obtain ⟨_, _, _, hr⟩ := exists_of_bind hr
  obtain ⟨rfl, _⟩ := of_pure hr
  exact hstop

namespace ModuleSymbols

/-- The records that the first walk of a module meets. -/
def counting (limit : Nat) (b : Buffer) (start : Nat) : ScanRun Nat :=
  scanRun limit (countProcedure limit) 0 b start

/-- Whether all procedures that the second walk of a module meets have a terminator that declares to be four bytes long. -/
def EndsPlainly (moduleName : String) (limit : Nat) (options : Options) (b : Buffer) (start : Nat) : Prop :=
  ∀ h ∈ (gathering moduleName limit options b start).visited, h.kind.isProcedure = true → h.EndsPlainly b

variable {moduleName : String} {limit : Nat} {options : Options} {b : Buffer} {p q r : Nat} {methods methods' : List Method}
variable {hs : List RecordHeader}

/-- Each record that the first walk meets is counted if it is a procedure, and the walk is to go on at the terminator of a procedure
or behind any other record. -/
theorem of_countProcedure {n n' : Nat} {h : RecordHeader} {resume : Resume}
    (hh : countProcedure limit h n b (h.offset + 4) = (.ok (resume, n'), r)) :
    h.stop ≤ resume.position h ∧
      if h.kind.isProcedure then
        n' = n + 1 ∧ resume.position h = h.declaredStop b ∧ resume.position h + terminatorSize ≤ limit
      else n' = n ∧ resume.position h = h.stop := by
  by_cases hk : h.kind.isProcedure = true
  · rw [countProcedure, if_pos hk] at hh
    rw [if_pos hk]
    obtain ⟨stop, _, hdeclared, hh⟩ := exists_of_bind hh
    obtain ⟨rfl, hbehind, hinside⟩ := RecordHeader.of_declaredEnd hdeclared
    obtain ⟨_, _, hfits, hh⟩ := exists_of_bind hh
    obtain ⟨_, rfl, rfl⟩ := of_fits hfits
    obtain ⟨hpair, _⟩ := of_pure hh
    cases hpair
    exact ⟨hbehind, rfl, rfl, hinside⟩
  · rw [countProcedure, if_neg hk] at hh
    rw [if_neg hk]
    obtain ⟨hpair, _⟩ := of_pure hh
    cases hpair
    exact ⟨Nat.le_refl _, rfl, rfl⟩

/-- Each step of the first walk counts a procedure, which is stepped over up to its terminator, and nothing else. -/
theorem count_of_step {n n' : Nat} {h : RecordHeader} (step : ScanStep limit (countProcedure limit) b p n h q n') :
    if h.kind.isProcedure then n' = n + 1 ∧ q = h.declaredStop b ∧ q + terminatorSize ≤ limit else n' = n ∧ q = h.stop := by
  obtain ⟨resume, c, hh, ht⟩ := step.handled
  obtain rfl := step.bounds.1
  obtain ⟨rfl, _⟩ := Resume.of_target ht
  exact (of_countProcedure hh).2

/-- The first walk jumps to the end of procedures. -/
theorem count_jumpsToEnd (limit : Nat) : JumpsToEnd RecordKind.isProcedure limit (countProcedure limit) := by
  intro b p q n n' h step
  have hstep := count_of_step step
  split
  · next hk =>
    rw [if_pos hk] at hstep
    exact hstep.2
  · next hk =>
    rw [if_neg hk] at hstep
    exact hstep.2

/-- The second walk reads to the end of procedures. -/
theorem gather_readsToEnd (moduleName : String) (limit : Nat) (options : Options) :
    ReadsToEnd RecordKind.isProcedure limit (gather moduleName limit options) := by
  intro b p q methods methods' h step
  cases hk : h.kind.isProcedure with
  | true =>
    obtain ⟨record, r, m, hfields, _, hmethod, _⟩ := exists_of_step step hk
    obtain ⟨_, _, _, _, _, hend, hq, _⟩ := Method.parts_of_read hmethod
    rw [ProcedureRecord.stop_of_read hfields] at hend hq
    exact ⟨hq, hend⟩
  | false => exact (eq_of_step step hk).1

/-- The first walk counts the procedures that it meets. -/
theorem count_of_scanned {n n' : Nat} (run : Scanned limit (countProcedure limit) b p n hs n' r) :
    n' = n + (hs.filter fun h => h.kind.isProcedure).length := by
  induction run with
  | done behind => rfl
  | step first _ ih =>
    have hstep := count_of_step first
    rw [List.filter_cons, ih]
    split at hstep
    · next hk =>
      rw [if_pos hk, List.length_cons, hstep.1]
      omega
    · next hk => rw [if_neg hk, hstep.1]

/-- The second walk decodes a method for each procedure that it meets. -/
theorem length_of_scanned (run : Scanned limit (gather moduleName limit options) b p methods hs methods' r) :
    methods'.length = methods.length + (hs.filter fun h => h.kind.isProcedure).length := by
  induction run with
  | done behind => rfl
  | @step _ _ _ _ _ _ h _ first _ ih =>
    rw [List.filter_cons, ih]
    cases hk : h.kind.isProcedure with
    | true =>
      obtain ⟨_, _, _, _, _, _, rfl⟩ := exists_of_step first hk
      rw [if_pos rfl, List.length_append, List.length_singleton, List.length_cons]
      omega
    | false => rw [if_neg (by decide), (eq_of_step first hk).2]

/-- In a module whose methods are read, the first walk has counted the procedures that it meets, and the second one has decoded a
method for each procedure that it meets. The first walk meets all records that the second one meets exactly when all procedures
end plainly, and then as many methods are decoded as were counted. -/
theorem length_of_read (hr : read moduleName limit options b p = (.ok (some methods), q)) :
    ∃ n r, countProcedures limit b p = (.ok n, r) ∧
      n = ((counting limit b p).visited.filter fun h => h.kind.isProcedure).length ∧
      methods.length = ((gathering moduleName limit options b p).visited.filter fun h => h.kind.isProcedure).length ∧
      ((∀ h ∈ (gathering moduleName limit options b p).visited, h ∈ (counting limit b p).visited) ↔
        EndsPlainly moduleName limit options b p) ∧
      (EndsPlainly moduleName limit options b p → methods.length = n) := by
  obtain ⟨n, r, hcount, hscan⟩ := parts_of_read hr
  have hcounted := scanned_of_scan hcount
  have hgathered := scanned_of_scan hscan
  have hn := count_of_scanned hcounted
  have hlength := length_of_scanned hgathered
  simp only [Nat.zero_add, List.length_nil] at hn hlength
  refine ⟨n, r, hcount, hn, hlength, ?_, ?_⟩
  · exact Scanned.subset_iff (count_jumpsToEnd limit) (gather_readsToEnd moduleName limit options) rfl hcounted hgathered
  · intro hends
    have hsame := Scanned.filter_eq RecordKind.isProcedure (count_jumpsToEnd limit)
      (gather_readsToEnd moduleName limit options) rfl rfl hcounted hgathered hends
    rw [hlength, hn, hsame]

/-- Two procedures with nothing in them. The terminator of the first one declares to be so many bytes longer than it is. -/
def sampleOfTwo (surplus : UInt16) : Buffer where
  bytes := (sampleRecord "M" 43 ++ Method.longTerminator surplus ++ sampleRecord "N" 90 ++ Layout.terminator).toArray
  size_lt := by
    simp [sampleRecord, sampleShape, Method.longTerminator, Layout.record, ProcedureShape.fields, Layout.terminator, Layout.utf8,
      Utf8.encode]
    decide

/-- Procedures whose terminators are four bytes long are counted as what they are. -/
theorem length_of_read_sample : ∃ methods q n r, read "M" 94 {} (sampleOfTwo 0) 0 = (.ok (some methods), q) ∧
    EndsPlainly "M" 94 {} (sampleOfTwo 0) 0 ∧ countProcedures 94 (sampleOfTwo 0) 0 = (.ok n, r) ∧ methods.length = n := by
  have hlength : (read "M" 94 {} (sampleOfTwo 0) 0).1.toOption.map (Option.map List.length) = some (some 2) := by
    decide +kernel
  obtain ⟨methods, q, hr, _⟩ := exists_of_some_answer hlength
  have hends : EndsPlainly "M" 94 {} (sampleOfTwo 0) 0 := by
    rw [EndsPlainly]
    decide +kernel
  obtain ⟨n, r, hcount, _, _, _, hn⟩ := length_of_read hr
  exact ⟨methods, q, n, r, hr, hends, hcount, hn hends⟩

/-- Fewer procedures may be counted than methods are decoded: a procedure is not counted if it lies in the length that the
terminator in front of it declares. -/
theorem length_ne : ∃ methods q n r, read "M" 94 {} (sampleOfTwo 47) 0 = (.ok (some methods), q) ∧
    countProcedures 94 (sampleOfTwo 47) 0 = (.ok n, r) ∧ methods.length = 2 ∧ n = 1 := by
  have hlength : (read "M" 94 {} (sampleOfTwo 47) 0).1.toOption.map (Option.map List.length) = some (some 2) := by
    decide +kernel
  obtain ⟨methods, q, hr, hm⟩ := exists_of_some_answer hlength
  have hone : (countProcedures 94 (sampleOfTwo 47) 0).1.toOption.map id = some 1 := by decide +kernel
  obtain ⟨n, r, hcount, hn⟩ := exists_of_answer hone
  exact ⟨methods, q, n, r, hr, hcount, hm, hn⟩

end ModuleSymbols

end ManagedSymbols
